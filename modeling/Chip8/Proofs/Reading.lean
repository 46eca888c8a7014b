/-
  Chip8.Proofs.Reading — assembly text read back.

  An assembly line is words with blanks between them, and commas that a reader can do without.  The first word
  is the mnemonic.  An operand is told by how it begins: a register by a `V`, a number in base sixteen by its
  mark, a number in base ten by a digit; anything else is a name.  Padding zeros say nothing, so a number is
  read back however wide it was written.  By their operands, the loads that share a mnemonic are told apart,
  and so are additions, comparisons and jumps.

  What a line does not show cannot be read back: the register that a shift ignores.  Everything else is, so no
  two instructions share a text that differ in anything else.

  Main statements: `ofText?_text` (lines are read back) and `text_identifies`.
-/
import Chip8.Instruction.Text
import Chip8.Proofs.Spelling

namespace Chip8

/-! ## §1. Numbers in base sixteen. -/

namespace Hex

/-- The number that digits write. -/
def value (digits : List Char) : Nat :=
  digits.foldl (fun n c => 0x10 * n + (digitValue? c).getD 0) 0

theorem value_concat (digits : List Char) (c : Char) :
    value (digits ++ [c]) = 0x10 * value digits + (digitValue? c).getD 0 := by
  simp [value]

/-- Every digit has its value, in either case. -/
theorem digitValue?_toUpper {d : Nat} (h : d < 0x10) : digitValue? (Nat.digitChar d).toUpper = some d := by
  interval_cases d <;> decide

/-- The digits of a number write that number. -/
theorem value_toDigits (n : Nat) : value ((Nat.toDigits 0x10 n).map Char.toUpper) = n := by
  induction n using Nat.strongRecOn with
  | ind n ih =>
    rw [Nat.toDigits_eq_if (by decide)]
    split
    · rename_i hlt
      simp [value, digitValue?_toUpper hlt]
    · rename_i hge
      rw [List.map_append, List.map_singleton, value_concat, ih (n / 0x10) (by omega),
        digitValue?_toUpper (Nat.mod_lt n (by decide)), Option.getD_some]
      omega

/-- A zero in front changes nothing. -/
theorem value_zero_cons (digits : List Char) : value ('0' :: digits) = value digits := rfl

/-- A number is read back however wide it is written. -/
theorem value_upperDigits (width n : Nat) : value (upperDigits width n) = n := by
  have hzeros : ∀ k, value (List.replicate k '0' ++ (Nat.toDigits 0x10 n).map Char.toUpper) = n := by
    intro k
    induction k with
    | zero => exact value_toDigits n
    | succ k ih => exact (value_zero_cons _).trans ih
  have hupper : '0'.toUpper = '0' := by decide
  rw [upperDigits, digits, List.leftpad, List.map_append, List.map_replicate, hupper]
  exact hzeros _

/-- The digits of a number are digits. -/
theorem exists_of_mem_toDigits {n : Nat} {c : Char} (h : c ∈ Nat.toDigits 0x10 n) :
    ∃ d < 0x10, c = Nat.digitChar d := by
  induction n using Nat.strongRecOn with
  | ind n ih =>
    rw [Nat.toDigits_eq_if (by decide)] at h
    split at h
    · rename_i hlt
      exact ⟨n, hlt, List.mem_singleton.mp h⟩
    · rename_i hge
      rcases List.mem_append.mp h with hfront | hlast
      · exact ih (n / 0x10) (by omega) hfront
      · exact ⟨n % 0x10, Nat.mod_lt n (by decide), List.mem_singleton.mp hlast⟩

end Hex

/-! ## §2. Words of a line. -/

/-- Says of a character that it stands in a word of a line, and not between two. -/
def IsWordChar (c : Char) : Prop := c ≠ ' ' ∧ c ≠ ','

instance decidableIsWordChar : DecidablePred IsWordChar := fun _ => inferInstanceAs (Decidable (_ ∧ _))

/-- The words of a line; commas are passed over. -/
def wordsOf (line : List Char) : List (List Char) :=
  ((line.filter (· ≠ ',')).splitOn ' ').filter (· ≠ [])

/-- Words do not go across a blank. -/
theorem wordsOf_append_cons (front behind : List Char) :
    wordsOf (front ++ ' ' :: behind) = wordsOf front ++ wordsOf behind := by
  simp [wordsOf, List.splitOn_append_cons_self]

/-- A line without blanks and commas is a word. -/
theorem wordsOf_of_isWordChar {line : List Char} (h : ∀ c ∈ line, IsWordChar c) (hne : line ≠ []) :
    wordsOf line = [line] := by
  have hfilter : line.filter (· ≠ ',') = line := List.filter_eq_self.mpr fun c hc => by simp [(h c hc).2]
  have hblank : ' ' ∉ line := fun hc => (h ' ' hc).1 rfl
  simp only [wordsOf, hfilter, List.splitOn_eq_singleton hblank]
  simp [hne]

/-! ## §3. What words say. -/

/-- What a word of a line says. -/
inductive Token where
  | register (x : Register)
  /-- A number in base sixteen. -/
  | number (n : Nat)
  /-- A number in base ten. -/
  | decimal (n : Nat)
  /-- A mnemonic, or an operand that is neither a register nor a number. -/
  | name (letters : String)
  deriving Repr, DecidableEq

namespace Token

/-- What a word says, by its first characters. -/
def ofWord : List Char → Token
  | ['V', c] => .register (Fin.ofNat 16 (Hex.value [c]))
  | '0' :: 'x' :: digits => .number (Hex.value digits)
  | c :: word =>
    if c.isDigit then .decimal (Nat.ofDigitChars 10 (c :: word) 0) else .name (String.ofList (c :: word))
  | [] => .name ""

/-- What the words of a line say. -/
def ofLine (line : String) : List Token := (wordsOf line.toList).map ofWord

theorem ofLine_join (front behind : String) :
    ofLine (front ++ ", " ++ behind) = ofLine front ++ ofLine behind := by
  have hchars : (front ++ ", " ++ behind).toList = (front.toList ++ [',']) ++ ' ' :: behind.toList := by
    simp [String.toList_append]
  have hcomma : wordsOf (front.toList ++ [',']) = wordsOf front.toList := by
    simp [wordsOf]
  rw [ofLine, hchars, wordsOf_append_cons, hcomma, List.map_append]
  rfl

/-- A line says its mnemonic and its operands. -/
theorem ofLine_line (mnemonic operands : String) :
    ofLine (Instruction.line mnemonic operands) = ofLine mnemonic ++ ofLine operands := by
  unfold Instruction.line
  split
  · rename_i hempty
    rw [String.isEmpty_iff.mp hempty]
    exact (List.append_nil _).symm
  · have hchars : (mnemonic ++ " " ++ operands).toList = mnemonic.toList ++ ' ' :: operands.toList := by
      simp [String.toList_append]
    rw [ofLine, hchars, wordsOf_append_cons, List.map_append]
    rfl

theorem ofLine_register (x : Register) : ofLine x.text = [.register x] := by
  revert x
  decide +kernel

theorem isWordChar_digitChar {d : Nat} (h : d < 0x10) : IsWordChar (Nat.digitChar d).toUpper := by
  interval_cases d <;> decide

theorem isWordChar_of_mem_upperDigits {width n : Nat} {c : Char} (h : c ∈ Hex.upperDigits width n) :
    IsWordChar c := by
  simp only [Hex.upperDigits, Hex.digits, List.leftpad, List.mem_map, List.mem_append,
    List.mem_replicate] at h
  obtain ⟨c', ⟨_, rfl⟩ | hc', rfl⟩ := h
  · decide
  · obtain ⟨d, hd, rfl⟩ := Hex.exists_of_mem_toDigits hc'
    exact isWordChar_digitChar hd

theorem ofLine_upper (width n : Nat) : ofLine (Hex.upper width n) = [.number n] := by
  have hchars : (Hex.upper width n).toList = '0' :: 'x' :: Hex.upperDigits width n := by
    simp [Hex.upper, String.toList_append]
  have hword : ∀ c ∈ '0' :: 'x' :: Hex.upperDigits width n, IsWordChar c := by
    intro c hc
    simp only [List.mem_cons] at hc
    rcases hc with rfl | rfl | hc
    · decide
    · decide
    · exact isWordChar_of_mem_upperDigits hc
  rw [ofLine, hchars, wordsOf_of_isWordChar hword (List.cons_ne_nil _ _), List.map_singleton]
  exact congrArg (fun value => [number value]) (Hex.value_upperDigits width n)

theorem ofWord_of_isDigit {word : List Char} (h : ∀ c ∈ word, c.isDigit = true) (hne : word ≠ []) :
    ofWord word = .decimal (Nat.ofDigitChars 10 word 0) := by
  unfold ofWord
  split
  · exact absurd (h 'V' (by simp)) (by decide)
  · exact absurd (h 'x' (by simp)) (by decide)
  · rename_i c _ _ _
    rw [if_pos (h c List.mem_cons_self)]
  · exact absurd rfl hne

theorem ofLine_repr (n : Nat) : ofLine n.repr = [.decimal n] := by
  have hchars : n.repr.toList = Nat.toDigits 10 n := by
    rw [Nat.repr_eq_ofList_toDigits, String.toList_ofList]
  have hdigit : ∀ c ∈ Nat.toDigits 10 n, c.isDigit = true :=
    fun c hc => Nat.isDigit_of_mem_toDigits (by decide) (by decide) hc
  have hword : ∀ c ∈ Nat.toDigits 10 n, IsWordChar c := by
    intro c hc
    constructor
    · rintro rfl
      exact absurd (hdigit _ hc) (by decide)
    · rintro rfl
      exact absurd (hdigit _ hc) (by decide)
  rw [ofLine, hchars, wordsOf_of_isWordChar hword Nat.toDigits_ne_nil, List.map_singleton,
    ofWord_of_isDigit hdigit Nat.toDigits_ne_nil, Nat.ofDigitChars_ten_toDigits]

/-- Two operands, joined, say what each of them says. -/
theorem ofLine_pair {front behind : String} {first second : Token} (hfront : ofLine front = [first])
    (hbehind : ofLine behind = [second]) : ofLine (front ++ ", " ++ behind) = [first, second] := by
  rw [ofLine_join, hfront, hbehind]
  rfl

/-- The mnemonics, and the operands that are neither registers nor numbers. -/
def names : List String :=
  ["CLS", "RET", "SYS", "JP", "CALL", "SE", "SNE", "LD", "OR", "AND", "XOR", "ADD", "SUB", "SHR", "SUBN", "SHL",
    "RND", "DRW", "SKP", "SKNP", ".word", "I", "[I]", "DT", "ST", "K", "F", "B"]

theorem ofLine_name {letters : String} (h : letters ∈ names) : ofLine letters = [.name letters] := by
  revert letters
  decide +kernel

theorem ofLine_name_register {letters : String} (h : letters ∈ names) (x : Register) :
    ofLine (letters ++ ", " ++ x.text) = [.name letters, .register x] :=
  ofLine_pair (ofLine_name h) (ofLine_register x)

theorem ofLine_register_name {letters : String} (h : letters ∈ names) (x : Register) :
    ofLine (x.text ++ (", " ++ letters)) = [.register x, .name letters] := by
  rw [← String.append_assoc]
  exact ofLine_pair (ofLine_register x) (ofLine_name h)

end Token

/-! ## §4. Lines as instructions. -/

namespace Instruction

/-- What the operands of an instruction say. -/
def operandTokens : Instruction → List Token
  | .clearScreen | .returnFromCall => []
  | .system nnn | .jump nnn | .call nnn => [.number nnn.toNat]
  | .jumpPlus nnn => [.register 0, .number nnn.toNat]
  | .skipEqByte x nn | .skipNeByte x nn | .loadByte x nn | .addByte x nn | .random x nn =>
    [.register x, .number nn.toNat]
  | .skipEq x y | .skipNe x y => [.register x, .register y]
  | .combine .shiftRight x _ | .combine .shiftLeft x _ => [.register x]
  | .combine _ x y => [.register x, .register y]
  | .setIndex nnn => [.name "I", .number nnn.toNat]
  | .draw x y n => [.register x, .register y, .decimal n.toNat]
  | .skipHeld x | .skipNotHeld x => [.register x]
  | .getDelay x => [.register x, .name "DT"]
  | .takeKey x => [.register x, .name "K"]
  | .setDelay x => [.name "DT", .register x]
  | .setSound x => [.name "ST", .register x]
  | .addIndex x => [.name "I", .register x]
  | .pointToGlyph x => [.name "F", .register x]
  | .storeDecimal x => [.name "B", .register x]
  | .saveRegisters x => [.name "[I]", .register x]
  | .restoreRegisters x => [.register x, .name "[I]"]
  | .unknown word => [.number word.toNat]

/-- The load with the given operands. -/
def loadOf? : List Token → Option Instruction
  | [.register x, .number n] => some (.loadByte x (.ofNat n))
  | [.register x, .register y] => some (.combine .set x y)
  | [.register x, .name "DT"] => some (.getDelay x)
  | [.register x, .name "K"] => some (.takeKey x)
  | [.register x, .name "[I]"] => some (.restoreRegisters x)
  | [.name "I", .number n] => some (.setIndex (.ofNat n))
  | [.name "DT", .register x] => some (.setDelay x)
  | [.name "ST", .register x] => some (.setSound x)
  | [.name "F", .register x] => some (.pointToGlyph x)
  | [.name "B", .register x] => some (.storeDecimal x)
  | [.name "[I]", .register x] => some (.saveRegisters x)
  | _ => none

/-- The instruction with the given mnemonic and operands.  A shift is read as a shift of the register
    that it shows, whichever register it ignores. -/
def ofTokens? : List Token → Option Instruction
  | [.name "CLS"] => some .clearScreen
  | [.name "RET"] => some .returnFromCall
  | [.name "SYS", .number n] => some (.system (.ofNat n))
  | [.name "JP", .number n] => some (.jump (.ofNat n))
  | [.name "JP", .register _, .number n] => some (.jumpPlus (.ofNat n))
  | [.name "CALL", .number n] => some (.call (.ofNat n))
  | [.name "SE", .register x, .number n] => some (.skipEqByte x (.ofNat n))
  | [.name "SE", .register x, .register y] => some (.skipEq x y)
  | [.name "SNE", .register x, .number n] => some (.skipNeByte x (.ofNat n))
  | [.name "SNE", .register x, .register y] => some (.skipNe x y)
  | .name "LD" :: operands => loadOf? operands
  | [.name "ADD", .register x, .number n] => some (.addByte x (.ofNat n))
  | [.name "ADD", .register x, .register y] => some (.combine .add x y)
  | [.name "ADD", .name "I", .register x] => some (.addIndex x)
  | [.name "OR", .register x, .register y] => some (.combine .or x y)
  | [.name "AND", .register x, .register y] => some (.combine .and x y)
  | [.name "XOR", .register x, .register y] => some (.combine .xor x y)
  | [.name "SUB", .register x, .register y] => some (.combine .sub x y)
  | [.name "SUBN", .register x, .register y] => some (.combine .subReverse x y)
  | [.name "SHR", .register x] => some (.combine .shiftRight x x)
  | [.name "SHL", .register x] => some (.combine .shiftLeft x x)
  | [.name "RND", .register x, .number n] => some (.random x (.ofNat n))
  | [.name "DRW", .register x, .register y, .decimal n] => some (.draw x y (.ofNat n))
  | [.name "SKP", .register x] => some (.skipHeld x)
  | [.name "SKNP", .register x] => some (.skipNotHeld x)
  | [.name ".word", .number n] => some (.unknown (.ofNat n))
  | _ => none

/-- The instruction that a line is read as. -/
def ofText? (line : String) : Option Instruction := ofTokens? (Token.ofLine line)

/-- What an instruction's line shows of it. -/
def shown : Instruction → Instruction
  | .combine .shiftRight x _ => .combine .shiftRight x x
  | .combine .shiftLeft x _ => .combine .shiftLeft x x
  | i => i

theorem ofLine_mnemonic (i : Instruction) : Token.ofLine i.mnemonic = [.name i.mnemonic] := by
  apply Token.ofLine_name
  cases i with
  | combine op x y => cases op <;> simp [Token.names, mnemonic, ByteOp.mnemonic]
  | _ => simp [Token.names, mnemonic]

theorem ofLine_operands (i : Instruction) : Token.ofLine i.operands = i.operandTokens := by
  have hregister := Token.ofLine_register
  cases i with
  | clearScreen | returnFromCall => rfl
  | system nnn | jump nnn | call nnn => exact Token.ofLine_upper 3 nnn.toNat
  | skipEqByte x nn | skipNeByte x nn | loadByte x nn | addByte x nn | random x nn =>
    exact Token.ofLine_pair (hregister x) (Token.ofLine_upper 2 nn.toNat)
  | skipEq x y | skipNe x y => exact Token.ofLine_pair (hregister x) (hregister y)
  | combine op x y =>
    cases op with
    | shiftRight | shiftLeft => exact hregister x
    | _ => exact Token.ofLine_pair (hregister x) (hregister y)
  | draw x y n =>
    rw [operands, Token.ofLine_join, Token.ofLine_pair (hregister x) (hregister y), Token.ofLine_repr]
    rfl
  | skipHeld x | skipNotHeld x => exact hregister x
  | unknown word => exact Token.ofLine_upper 4 word.toNat
  -- A name is written in one literal with its comma; the stated types take the two apart.
  | jumpPlus nnn =>
    have hzero : Token.ofLine "V0" = [.register 0] := by decide +kernel
    have hpair := Token.ofLine_pair hzero (Token.ofLine_upper 3 nnn.toNat)
    exact hpair
  | setIndex nnn =>
    have hname : Token.ofLine "I" = [.name "I"] := Token.ofLine_name (by decide)
    have hpair := Token.ofLine_pair hname (Token.ofLine_upper 3 nnn.toNat)
    exact hpair
  | setDelay x => exact (Token.ofLine_name_register (by decide) x : Token.ofLine ("DT" ++ ", " ++ _) = _)
  | setSound x => exact (Token.ofLine_name_register (by decide) x : Token.ofLine ("ST" ++ ", " ++ _) = _)
  | addIndex x => exact (Token.ofLine_name_register (by decide) x : Token.ofLine ("I" ++ ", " ++ _) = _)
  | pointToGlyph x => exact (Token.ofLine_name_register (by decide) x : Token.ofLine ("F" ++ ", " ++ _) = _)
  | storeDecimal x => exact (Token.ofLine_name_register (by decide) x : Token.ofLine ("B" ++ ", " ++ _) = _)
  | saveRegisters x => exact (Token.ofLine_name_register (by decide) x : Token.ofLine ("[I]" ++ ", " ++ _) = _)
  | getDelay x => exact (Token.ofLine_register_name (by decide) x : Token.ofLine (_ ++ (", " ++ "DT")) = _)
  | takeKey x => exact (Token.ofLine_register_name (by decide) x : Token.ofLine (_ ++ (", " ++ "K")) = _)
  | restoreRegisters x =>
    exact (Token.ofLine_register_name (by decide) x : Token.ofLine (_ ++ (", " ++ "[I]")) = _)

theorem ofTokens?_tokens (i : Instruction) :
    ofTokens? (.name i.mnemonic :: i.operandTokens) = some i.shown := by
  cases i with
  | system nnn | jump nnn | jumpPlus nnn | call nnn | setIndex nnn | unknown nnn =>
    conv_rhs => rw [← UInt16.ofNat_toNat (x := nnn)]
    rfl
  | skipEqByte x nn | skipNeByte x nn | loadByte x nn | addByte x nn | random x nn | draw x y nn =>
    conv_rhs => rw [← UInt8.ofNat_toNat (x := nn)]
    rfl
  | combine op x y => cases op <;> rfl
  | _ => rfl

/-- An instruction's line is read as what the line shows of the instruction. -/
theorem ofText?_text (i : Instruction) : ofText? i.text = some i.shown := by
  rw [ofText?, text, Token.ofLine_line, ofLine_mnemonic, ofLine_operands]
  exact ofTokens?_tokens i

example : ofText? "LD V3, [I]" = some (.restoreRegisters 3) := by decide +kernel

/-! ## §5. Instructions with the same line. -/

/-- What a line does not show makes no difference to it. -/
theorem text_shown (i : Instruction) : i.shown.text = i.text := by
  cases i with
  | combine op x y => cases op <;> rfl
  | _ => rfl

theorem text_eq_text_iff {i j : Instruction} : i.text = j.text ↔ i.shown = j.shown := by
  constructor
  · intro h
    have hread : some i.shown = some j.shown := by rw [← ofText?_text, h, ofText?_text]
    exact Option.some.inj hread
  · intro h
    rw [← text_shown, h, text_shown]

/-- A line shows all of an instruction, unless it is a shift. -/
theorem shown_cases (i : Instruction) :
    i.shown = i ∨ ∃ op x y, (op = .shiftRight ∨ op = .shiftLeft) ∧ i = .combine op x y ∧
      i.shown = .combine op x x := by
  cases i with
  | combine op x y =>
    cases op with
    | shiftRight => exact .inr ⟨.shiftRight, x, y, .inl rfl, rfl, rfl⟩
    | shiftLeft => exact .inr ⟨.shiftLeft, x, y, .inr rfl, rfl, rfl⟩
    | _ => exact .inl rfl
  | _ => exact .inl rfl

theorem shown_combine {op : ByteOp} (h : op = .shiftRight ∨ op = .shiftLeft) (x y : Register) :
    (combine op x y).shown = .combine op x x := by
  rcases h with rfl | rfl <;> rfl

/-- Only shifts of one register, in one direction, are shown alike without being alike. -/
theorem shown_eq_shown_iff {i j : Instruction} :
    i.shown = j.shown ↔ i = j ∨ ∃ op x y z, (op = .shiftRight ∨ op = .shiftLeft) ∧
      i = .combine op x y ∧ j = .combine op x z := by
  constructor
  · intro h
    rcases i.shown_cases with hi | ⟨op, x, y, hop, hi, his⟩
    · rcases j.shown_cases with hj | ⟨op', x', y', hop', hj, hjs⟩
      · exact .inl (hi.symm.trans (h.trans hj))
      · exact .inr ⟨op', x', x', y', hop', hi.symm.trans (h.trans hjs), hj⟩
    · rcases j.shown_cases with hj | ⟨op', x', y', hop', hj, hjs⟩
      · exact .inr ⟨op, x, y, x, hop, hi, hj.symm.trans (h.symm.trans his)⟩
      · obtain ⟨rfl, rfl, -⟩ := combine.inj (his.symm.trans (h.trans hjs))
        exact .inr ⟨op, x, y, y', hop, hi, hj⟩
  · rintro (rfl | ⟨op, x, y, z, hop, rfl, rfl⟩)
    · rfl
    · rw [shown_combine hop, shown_combine hop]

/-- Assembly text tells instructions apart, whatever their operands hold, but for the register that a
    shift ignores; so the words that share a line are those of one shift of one register. -/
theorem text_identifies :
    (∀ i j : Instruction, i.text = j.text ↔
      i = j ∨ ∃ op x y z, (op = .shiftRight ∨ op = .shiftLeft) ∧ i = .combine op x y ∧
        j = .combine op x z) ∧
    ∀ w w' : Word, (decode w).text = (decode w').text ↔
      w = w' ∨ ∃ n x y z, (n = 0x6 ∨ n = 0xE) ∧ w = .ofXYN 0x8 x y n ∧ w' = .ofXYN 0x8 x z n := by
  have htext (i j : Instruction) := (text_eq_text_iff (i := i) (j := j)).trans shown_eq_shown_iff
  refine ⟨htext, fun w w' => (htext _ _).trans ?_⟩
  constructor
  · rintro (h | ⟨op, x, y, z, hop, hw, hw'⟩)
    · exact .inl (decode_injective h)
    · refine .inr ⟨op.digit, x, y, z, hop.imp (congrArg ByteOp.digit) (congrArg ByteOp.digit), ?_, ?_⟩
      · rw [← encode_decode w, hw, encode]
      · rw [← encode_decode w', hw', encode]
  · have hshift (op : ByteOp) (x y : Register) : decode (.ofXYN 0x8 x y op.digit) = .combine op x y :=
      (decode_encode_iff (i := .combine op x y)).mpr trivial
    rintro (rfl | ⟨n, x, y, z, rfl | rfl, rfl, rfl⟩)
    · exact .inl rfl
    · exact .inr ⟨.shiftRight, x, y, z, .inl rfl, hshift .shiftRight x y, hshift .shiftRight x z⟩
    · exact .inr ⟨.shiftLeft, x, y, z, .inr rfl, hshift .shiftLeft x y, hshift .shiftLeft x z⟩

end Instruction

end Chip8
