/-
  Chip8.Proofs.Recalling — what a history has said last.

  A history is a list of things that happened, the last of them at the end.  Now and then it begins anew,
  and what lies before that does not count any more.  Of the rest two things are asked: what was said last,
  and how often something happened.  Both are answered going along: one more thing at the end changes the
  answer in a way that depends on that thing alone.

  Main statements: `latest_concat` and `countSince_concat`.
-/
import Mathlib.Data.List.DropRight

namespace Chip8

variable {α β : Type} (anew : α → Bool)

/-- What a history said last since it last began anew, if it said anything. -/
def latest (saying : α → Option β) (xs : List α) : Option β :=
  ((xs.rtakeWhile fun x => !anew x).filterMap saying).getLast?

/-- How often something happened in a history since it last began anew. -/
def countSince (happens : α → Bool) (xs : List α) : Nat :=
  (xs.rtakeWhile fun x => !anew x).countP happens

/-- One more thing begins anew, says something or leaves what was said. -/
theorem latest_concat (saying : α → Option β) (xs : List α) (x : α) :
    latest anew saying (xs ++ [x]) = if anew x then none else (saying x).or (latest anew saying xs) := by
  unfold latest
  rw [List.rtakeWhile_concat]
  cases anew x with
  | true => rfl
  | false =>
    show (((xs.rtakeWhile fun x => !anew x) ++ [x]).filterMap saying).getLast? = _
    rw [List.filterMap_append]
    cases hx : saying x with
    | none =>
      rw [List.filterMap_cons_none hx, List.filterMap_nil, List.append_nil]
      rfl
    | some b =>
      rw [List.filterMap_cons_some hx, List.filterMap_nil, List.getLast?_concat]
      rfl

/-- What a history said last lies in what its things are taken for. -/
theorem latest_map {γ : Type} (f : γ → α) (saying : α → Option β) (xs : List γ) :
    latest anew saying (xs.map f) = latest (anew ∘ f) (saying ∘ f) xs := by
  unfold latest List.rtakeWhile
  rw [← List.map_reverse, List.takeWhile_map, ← List.map_reverse, List.filterMap_map]
  rfl

/-- One more thing begins the count anew, adds one to it or leaves it. -/
theorem countSince_concat (happens : α → Bool) (xs : List α) (x : α) :
    countSince anew happens (xs ++ [x]) =
      if anew x then 0 else countSince anew happens xs + if happens x then 1 else 0 := by
  unfold countSince
  rw [List.rtakeWhile_concat]
  cases anew x with
  | true => rfl
  | false =>
    show ((xs.rtakeWhile fun x => !anew x) ++ [x]).countP happens = _
    rw [List.countP_append, List.countP_singleton]
    rfl

end Chip8
