import Mathlib.Data.List.Basic

/-!
Texts that are put together from parts, and how the parts are told apart again: a letter that stands
in none of the parts marks where they end.

* `append_inj_of_head?`: a first part, up to the mark or to the end;
* `append_cons_inj_of_not_mem`: a last part, after the mark;
* `intercalate_inj`: words in a row, with a separator that begins with the mark;
* `toList_toString_inj`: a part that is a number, from its digits.
-/

namespace SourceDiagnostics

variable {α : Type} {a : α} {sep x y s t : List α} {xs ys : List (List α)}

/-! ## One separator -/

/-- Words without `a` end in the same place if `a` comes next, or nothing. -/
theorem append_inj_of_head? (hx : a ∉ x) (hy : a ∉ y) (hs : ∀ c ∈ s.head?, c = a)
    (ht : ∀ c ∈ t.head?, c = a) (h : x ++ s = y ++ t) : x = y ∧ s = t := by
  rcases List.append_eq_append_iff.mp h with ⟨as, rfl, rfl⟩ | ⟨as, rfl, rfl⟩
  · cases as with
    | nil => simp
    | cons c as =>
      obtain rfl := hs c rfl
      exact absurd (by simp) hy
  · cases as with
    | nil => simp
    | cons c as =>
      obtain rfl := ht c rfl
      exact absurd (by simp) hx

/-- The same from the other end: what comes after the last `a` begins in the same place. -/
theorem append_cons_inj_of_not_mem (hs : a ∉ s) (ht : a ∉ t) :
    x ++ a :: s = y ++ a :: t ↔ x = y ∧ s = t := by
  constructor
  · intro h
    have hreversed : s.reverse ++ a :: x.reverse = t.reverse ++ a :: y.reverse := by
      simpa using congrArg List.reverse h
    obtain ⟨hrest, hfirst⟩ := append_inj_of_head? (mt List.mem_reverse.mp hs)
      (mt List.mem_reverse.mp ht) (by simp) (by simp) hreversed
    exact ⟨List.reverse_inj.mp (List.cons.inj hfirst).2, List.reverse_inj.mp hrest⟩
  · rintro ⟨rfl, rfl⟩
    rfl

/-! ## Words in a row -/

theorem head?_flatMap_sep (xs : List (List α)) :
    ∀ c ∈ (xs.flatMap fun x => a :: sep ++ x).head?, c = a := by
  cases xs <;> simp

theorem flatMap_sep_inj (hx : ∀ x ∈ xs, a ∉ x) (hy : ∀ y ∈ ys, a ∉ y)
    (h : (xs.flatMap fun x => a :: sep ++ x) = ys.flatMap fun y => a :: sep ++ y) : xs = ys := by
  induction xs generalizing ys with
  | nil => cases ys with
    | nil => rfl
    | cons y ys => simp at h
  | cons x xs ih => cases ys with
    | nil => simp at h
    | cons y ys =>
      simp only [List.flatMap_cons, List.append_assoc, List.append_cancel_left_eq] at h
      obtain ⟨rfl, hrest⟩ := append_inj_of_head? (hx x List.mem_cons_self) (hy y List.mem_cons_self)
        (head?_flatMap_sep xs) (head?_flatMap_sep ys) h
      rw [ih (fun z hz => hx z (List.mem_cons_of_mem x hz))
        (fun z hz => hy z (List.mem_cons_of_mem x hz)) hrest]

theorem intercalate_cons (sep x : List α) (xs : List (List α)) :
    sep.intercalate (x :: xs) = x ++ xs.flatMap fun y => sep ++ y := by
  induction xs generalizing x with
  | nil => simp
  | cons y ys ih => rw [List.intercalate_cons_cons, ih, List.flatMap_cons]; simp

/-- Words in a row can be told apart if there is something to each and none holds the first letter
of the separator. Without words there is nothing, which is no word. -/
theorem intercalate_inj (hx : ∀ x ∈ xs, x ≠ [] ∧ a ∉ x) (hy : ∀ y ∈ ys, y ≠ [] ∧ a ∉ y)
    (h : (a :: sep).intercalate xs = (a :: sep).intercalate ys) : xs = ys := by
  cases xs with
  | nil => cases ys with
    | nil => rfl
    | cons y ys =>
      rw [List.intercalate_nil, intercalate_cons] at h
      exact absurd (List.append_eq_nil_iff.mp h.symm).1 (hy y List.mem_cons_self).1
  | cons x xs => cases ys with
    | nil =>
      rw [List.intercalate_nil, intercalate_cons] at h
      exact absurd (List.append_eq_nil_iff.mp h).1 (hx x List.mem_cons_self).1
    | cons y ys =>
      rw [intercalate_cons, intercalate_cons] at h
      obtain ⟨rfl, hrest⟩ := append_inj_of_head? (hx x List.mem_cons_self).2
        (hy y List.mem_cons_self).2 (head?_flatMap_sep xs) (head?_flatMap_sep ys) h
      rw [flatMap_sep_inj (fun z hz => (hx z (List.mem_cons_of_mem x hz)).2)
        (fun z hz => (hy z (List.mem_cons_of_mem x hz)).2) hrest]

/-! ## Numbers -/

/-- The digits of a number read back as the number. -/
theorem toList_toString_inj {m n : Nat} : (toString m).toList = (toString n).toList ↔ m = n := by
  constructor
  · intro h
    have hread := congrArg (fun digits => Nat.ofDigitChars 10 digits 0) h
    simpa only [Nat.toString_eq_repr, Nat.toList_repr, Nat.ofDigitChars_ten_toDigits] using hread
  · rintro rfl
    rfl

end SourceDiagnostics
