/-
  Chip8.Proofs.Balancing — arithmetic loses nothing of its operands.

  A result has only eight bits, and what does not fit is in the flag: over the integers, result and flag
  together balance the operands.  Each operation with a flag has its own equation.  Since a result is below
  `0x100` and a flag is zero or one, the equation has one solution, and so it says what both of them are.  The
  operations without a flag work bit by bit.

  Which registers are named matters in one case only.  The flag is written behind the result, so a result that
  goes to the flag register is lost and the flag is there instead.

  Main statements: `balances_apply` and `Balances.unique` (bytes), `v_combine_of_some` (registers) and
  `combine_balanced`.
-/
import Chip8.Proofs.Meaning

namespace Chip8

/-! ## §1. What operations compute. -/

namespace ByteOp

/-- What an operation without a flag makes of two bits. -/
def bit? : ByteOp → Option (Bool → Bool → Bool)
  | .set => some fun _ b => b
  | .or => some Bool.or
  | .and => some Bool.and
  | .xor => some Bool.xor
  | .add | .sub | .shiftRight | .subReverse | .shiftLeft => none

/-- The equation between the operands `a` and `b` of an operation with a flag, its result `r` and its flag
    `f`. -/
def Balances (op : ByteOp) (a b r f : Int) : Prop :=
  match op with
  | .add => r + 0x100 * f = a + b
  -- The flag is lowered by a borrow.
  | .sub => r = a - b + 0x100 * (1 - f)
  | .subReverse => r = b - a + 0x100 * (1 - f)
  | .shiftRight => 2 * r + f = a
  | .shiftLeft => r + 0x100 * f = 2 * a
  | .set | .or | .and | .xor => False

/-- The equation of an operation has one solution. -/
theorem Balances.unique {op : ByteOp} {a b : Int} {r r' f f' : UInt8}
    (h : op.Balances a b r.toNat f.toNat) (hf : f.toNat ≤ 1)
    (h' : op.Balances a b r'.toNat f'.toNat) (hf' : f'.toNat ≤ 1) : r' = r ∧ f' = f := by
  have hr := r.toNat_lt
  have hr' := r'.toNat_lt
  rw [← UInt8.toNat_inj, ← UInt8.toNat_inj]
  cases op <;> simp only [Balances] at h h' <;> omega

end ByteOp

/-! ## §2. Bytes. -/

namespace Alu

/-- An operation leaves the flag alone exactly if it works bit by bit. -/
theorem flag_apply_eq_none_iff (op : ByteOp) (a b : UInt8) :
    (apply op a b).2 = none ↔ op.bit? ≠ none := by
  cases op <;> simp [apply, ByteOp.bit?]

/-- The result of an operation without a flag. -/
theorem testBit_apply {op : ByteOp} {bit : Bool → Bool → Bool} (h : op.bit? = some bit) (a b : UInt8)
    (j : Nat) : (apply op a b).1.toNat.testBit j = bit (a.toNat.testBit j) (b.toNat.testBit j) := by
  cases op <;> cases h <;> simp [apply]

/-- A condition as a number. -/
theorem toNat_flagByte_decide (p : Prop) [Decidable p] :
    (flagByte (decide p)).toNat = if p then 1 else 0 := by
  unfold flagByte
  split <;> simp_all

/-- A flag is zero or one. -/
theorem toNat_flagByte_le (bit : Bool) : (flagByte bit).toNat ≤ 1 := by
  cases bit <;> decide

/-- The result and the flag of an operation with a flag. -/
theorem balances_apply {op : ByteOp} {a b : UInt8} {bit : Bool} (h : (apply op a b).2 = some bit) :
    op.Balances a.toNat b.toNat (apply op a b).1.toNat (flagByte bit).toNat := by
  have ha := a.toNat_lt
  have hb := b.toNat_lt
  cases op <;> cases h <;> simp only [ByteOp.Balances, apply]
  case add =>
    rw [toNat_flagByte_decide, UInt8.toNat_add]
    split <;> omega
  case sub | subReverse =>
    simp only [toNat_flagByte_decide, UInt8.le_iff_toNat_le, Machine.toNat_sub_eq]
    split <;> omega
  case shiftRight =>
    rw [Nat.testBit_zero, toNat_flagByte_decide, Machine.toNat_shiftRight_one]
    split <;> omega
  case shiftLeft =>
    rw [Machine.testBit_seven, toNat_flagByte_decide, Machine.toNat_shiftLeft_one]
    split <;> omega

end Alu

/-! ## §3. Registers. -/

namespace Machine

/-- An operation without a flag writes its result. -/
theorem v_combine_of_none {m : Machine} {op : ByteOp} {x y : Register}
    (h : (Alu.apply op (m.v x) (m.v y)).2 = none) (k : Register) :
    (m.combine op x y).v k = if k = x then (Alu.apply op (m.v x) (m.v y)).1 else m.v k := by
  simp only [combine, h, Alu.FlagUpdate.value, Option.map_none]
  exact v_setV m x k _

/-- An operation with a flag writes its result and then the flag. -/
theorem v_combine_of_some {m : Machine} {op : ByteOp} {x y : Register} {bit : Bool}
    (h : (Alu.apply op (m.v x) (m.v y)).2 = some bit) (k : Register) :
    (m.combine op x y).v k = if k = Register.flag then Alu.flagByte bit
      else if k = x then (Alu.apply op (m.v x) (m.v y)).1 else m.v k := by
  simp only [combine, h, Alu.FlagUpdate.value, Option.map_some]
  rw [v_setV, v_setV]

/-- What an arithmetic instruction leaves behind, on any machine and for any two registers, which may be one
    and the same and may be the flag register.  It completes, and it changes general registers only.  An
    operation without a flag changes the first register only, to what its two operands are bit by bit.  An
    operation with a flag has the one result and the one flag that balance the operands: the flag register
    holds the flag, the first register holds the result if it is another one, and the rest is as before. -/
theorem combine_balanced (m : Machine) (op : ByteOp) (x y : Register) :
    ∃ after, m.execute (.combine op x y) = .ok (.advance, after) ∧
      after = { m with registers := { m.registers with v := after.registers.v } } ∧
      (∀ bit, op.bit? = some bit → ∃ r : UInt8,
        (∀ j, r.toNat.testBit j = bit ((m.v x).toNat.testBit j) ((m.v y).toNat.testBit j)) ∧
        ∀ k, after.v k = if k = x then r else m.v k) ∧
      (op.bit? = none → ∃ r f : UInt8, f.toNat ≤ 1 ∧
        op.Balances (m.v x).toNat (m.v y).toNat r.toNat f.toNat ∧
        (∀ r' f' : UInt8, f'.toNat ≤ 1 →
          op.Balances (m.v x).toNat (m.v y).toNat r'.toNat f'.toNat → r' = r ∧ f' = f) ∧
        ∀ k, after.v k = if k = Register.flag then f else if k = x then r else m.v k) := by
  obtain ⟨v, hv⟩ := combine_eq m op x y
  refine ⟨m.combine op x y, rfl, ?_, ?_, ?_⟩
  · rw [hv]
  · intro bit hbit
    have hnone : (Alu.apply op (m.v x) (m.v y)).2 = none := by
      rw [Alu.flag_apply_eq_none_iff, hbit]
      nofun
    exact ⟨_, Alu.testBit_apply hbit _ _, v_combine_of_none hnone⟩
  · intro hbit
    have hflag : (Alu.apply op (m.v x) (m.v y)).2 ≠ none :=
      fun hnone => (Alu.flag_apply_eq_none_iff op _ _).mp hnone hbit
    obtain ⟨bit, hsome⟩ := Option.ne_none_iff_exists'.mp hflag
    have hbalances := Alu.balances_apply hsome
    refine ⟨_, Alu.flagByte bit, Alu.toNat_flagByte_le bit, hbalances, ?_, v_combine_of_some hsome⟩
    intro r' f' hf' h'
    exact hbalances.unique (Alu.toNat_flagByte_le bit) h' hf'

/-- The sum of 200 and 100 is lost if it goes to the flag register, but its carry is not. -/
theorem combine_balanced_flag :
    let m := ((new .standard).setV Register.flag 200).setV 3 100
    ByteOp.bit? .add = none ∧ ∃ after, m.execute (.combine .add Register.flag 3) = .ok (.advance, after) ∧
      after.v Register.flag = 1 ∧ after.v 3 = 100 := by
  intro m
  obtain ⟨after, h, _, _, hcarry⟩ := combine_balanced m .add Register.flag 3
  obtain ⟨r, f, hf, hsum, _, hv⟩ := hcarry rfl
  have hone : f = 1 := by
    have hr := r.toNat_lt
    have hsum' : (r.toNat : Int) + 0x100 * f.toNat = 200 + 100 := hsum
    apply UInt8.toNat_inj.mp
    show f.toNat = 1
    omega
  exact ⟨rfl, after, h, (hv Register.flag).trans hone, hv 3⟩

end Machine

end Chip8
