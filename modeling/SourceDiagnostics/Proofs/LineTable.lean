import Mathlib.Data.List.Basic
import SourceDiagnostics.Source.File

/-!
Line tables of texts that fit the words of their offsets.

* `pairwise_lineStarts`, `le_of_mem_lineStarts`: line starts increase strictly and lie in the text;
* `LineTable.bisect_splits`: bisection parts an increasing table where the offset belongs;
* `LineTable.position_spec`: every offset has a position, which is in the last line that starts at
  or before it; `filter_lineStarts` reads this as a count.
-/

namespace SourceDiagnostics

open Text

variable {cs : List Char} {o s i j : Nat}

/-! ## Line starts -/

theorem bounds_of_mem_startsAfter (h : s ∈ startsAfter o cs) : o < s ∧ s ≤ o + byteLength cs := by
  induction cs generalizing o with
  | nil => cases h
  | cons c cs ih =>
    have := c.utf8Size_pos
    rw [startsAfter] at h
    rw [byteLength_cons]
    split at h
    · rcases List.mem_cons.mp h with rfl | h
      · omega
      · have := ih h
        omega
    · have := ih h
      omega

theorem pairwise_startsAfter (o : Nat) (cs : List Char) :
    (startsAfter o cs).Pairwise (· < ·) := by
  induction cs generalizing o with
  | nil => exact List.Pairwise.nil
  | cons c cs ih =>
    rw [startsAfter]
    split
    · exact List.pairwise_cons.mpr ⟨fun s hs => (bounds_of_mem_startsAfter hs).1, ih _⟩
    · exact ih _

theorem pairwise_lineStarts (cs : List Char) : (lineStarts cs).Pairwise (· < ·) :=
  List.pairwise_cons.mpr ⟨fun _ hs => (bounds_of_mem_startsAfter hs).1, pairwise_startsAfter 0 cs⟩

theorem le_of_mem_lineStarts (h : s ∈ lineStarts cs) : s ≤ byteLength cs := by
  rcases List.mem_cons.mp h with rfl | h
  · exact Nat.zero_le _
  · have := (bounds_of_mem_startsAfter h).2
    omega

theorem lt_of_lineStarts {a b : Nat} (hij : i < j) (hi : (lineStarts cs)[i]? = some a)
    (hj : (lineStarts cs)[j]? = some b) : a < b := by
  obtain ⟨hi', rfl⟩ := List.getElem?_eq_some_iff.mp hi
  obtain ⟨hj', rfl⟩ := List.getElem?_eq_some_iff.mp hj
  exact List.pairwise_iff_getElem.mp (pairwise_lineStarts cs) i j hi' hj' hij

/-- Every line before the one that starts at `s` takes at least one byte. -/
theorem index_le_of_lineStarts (h : (lineStarts cs)[i]? = some s) : i ≤ s := by
  induction i generalizing s with
  | zero => exact Nat.zero_le s
  | succ i ih =>
    obtain ⟨hi, _⟩ := List.getElem?_eq_some_iff.mp h
    have hprev := List.getElem?_eq_getElem (Nat.lt_of_succ_lt hi)
    have := ih hprev
    have := lt_of_lineStarts (Nat.lt_succ_self i) hprev h
    omega

/-- The line starts up to an offset in line `i` are those of the first lines. -/
theorem filter_lineStarts {p : Nat} (hi : (lineStarts cs)[i]? = some s) (hs : s ≤ p)
    (hnext : ∀ next, (lineStarts cs)[i + 1]? = some next → p < next) :
    (lineStarts cs).filter (· ≤ p) = (lineStarts cs).take (i + 1) := by
  have hsplit := List.take_append_drop (i + 1) (lineStarts cs)
  have hbefore : ((lineStarts cs).take (i + 1)).filter (· ≤ p) = (lineStarts cs).take (i + 1) := by
    refine List.filter_eq_self.mpr fun a ha => ?_
    obtain ⟨k, hk⟩ := List.mem_iff_getElem?.mp ha
    rw [List.getElem?_take] at hk
    split at hk
    · next hki =>
      rcases Nat.lt_or_eq_of_le (Nat.le_of_lt_succ hki) with hki | rfl
      · have := lt_of_lineStarts hki hk hi
        exact decide_eq_true (by omega)
      · rw [hi] at hk
        cases hk
        exact decide_eq_true hs
    · cases hk
  have hafter : ((lineStarts cs).drop (i + 1)).filter (· ≤ p) = [] := by
    refine List.filter_eq_nil_iff.mpr fun a ha => ?_
    obtain ⟨k, hk⟩ := List.mem_iff_getElem?.mp ha
    rw [List.getElem?_drop] at hk
    have hp : p < a := by
      cases k with
      | zero => exact hnext a hk
      | succ k =>
        have hlt := (List.getElem?_eq_some_iff.mp hk).1
        have hsome := List.getElem?_eq_getElem (Nat.lt_of_le_of_lt (Nat.le_add_right _ _) hlt)
        exact Nat.lt_trans (hnext _ hsome) (lt_of_lineStarts (by omega) hsome hk)
    simpa using hp
  calc (lineStarts cs).filter (· ≤ p)
    _ = ((lineStarts cs).take (i + 1)).filter (· ≤ p) ++
        ((lineStarts cs).drop (i + 1)).filter (· ≤ p) := by rw [← List.filter_append, hsplit]
    _ = (lineStarts cs).take (i + 1) := by rw [hbefore, hafter, List.append_nil]

/-! ## Bisection -/

namespace LineTable

/-- Entries before `lo` are at most `offset`, and entries from `hi` on are greater. -/
structure Splits (starts : Array UInt32) (offset : UInt32) (lo hi : Nat) : Prop where
  below : ∀ {i start}, i < lo → starts[i]? = some start → start ≤ offset
  above : ∀ {i start}, hi ≤ i → starts[i]? = some start → offset < start

/-- Entries increase strictly. -/
def Increasing (starts : Array UInt32) : Prop :=
  ∀ {i j : Nat} {a b : UInt32}, i < j → starts[i]? = some a → starts[j]? = some b → a < b

theorem bisect_splits {starts : Array UInt32} {offset : UInt32} {lo hi : Nat}
    (hs : Increasing starts) (hle : lo ≤ hi) (hhi : hi ≤ starts.size)
    (h : Splits starts offset lo hi) :
    bisect starts offset lo hi ≤ starts.size ∧
      Splits starts offset (bisect starts offset lo hi) (bisect starts offset lo hi) := by
  fun_induction bisect starts offset lo hi with
  | case1 lo hi hlt mid hnone =>
    have : starts.size ≤ mid := Array.getElem?_eq_none_iff.mp hnone
    omega
  | case2 lo hi hlt mid start hmid hstart ih =>
    refine ih (by omega) hhi ⟨?_, h.above⟩
    intro i a hi' ha
    rcases Nat.lt_or_eq_of_le (Nat.le_of_lt_succ hi') with hi' | rfl
    · exact UInt32.le_of_lt (UInt32.lt_of_lt_of_le (hs hi' ha hmid) hstart)
    · rw [hmid] at ha
      cases ha
      exact hstart
  | case3 lo hi hlt mid start hmid hstart ih =>
    refine ih (by omega) (by omega) ⟨h.below, ?_⟩
    intro i a hi' ha
    rcases Nat.lt_or_eq_of_le hi' with hi' | rfl
    · exact UInt32.lt_trans (UInt32.not_le.mp hstart) (hs hi' hmid ha)
    · rw [hmid] at ha
      cases ha
      exact UInt32.not_le.mp hstart
  | case4 lo hi hlt =>
    obtain rfl : lo = hi := by omega
    exact ⟨hhi, h⟩

/-! ## Positions -/

theorem getElem?_starts (cs : List Char) (i : Nat) :
    (ofText cs).starts[i]? = (lineStarts cs)[i]?.map clampWord := by
  simp [ofText]

theorem toNat_of_starts {a : UInt32} (hcs : byteLength cs ≤ maxWord)
    (h : (ofText cs).starts[i]? = some a) : (lineStarts cs)[i]? = some a.toNat := by
  rw [getElem?_starts] at h
  obtain ⟨s, hs, rfl⟩ := Option.map_eq_some_iff.mp h
  have := le_of_mem_lineStarts (List.mem_of_getElem? hs)
  rw [toNat_clampWord, Nat.min_eq_left (Nat.le_trans this hcs)]
  exact hs

theorem increasing_starts (hcs : byteLength cs ≤ maxWord) : Increasing (ofText cs).starts := by
  intro i j a b hij ha hb
  exact UInt32.lt_iff_toNat_lt.mpr
    (lt_of_lineStarts hij (toNat_of_starts hcs ha) (toNat_of_starts hcs hb))

/-- Every offset has a position: that of the last line which starts at or before it. -/
theorem position_spec (hcs : byteLength cs ≤ maxWord) (offset : UInt32) :
    ∃ p start, (ofText cs).position offset = .ok p ∧
      (lineStarts cs)[p.line.toNat]? = some start ∧ start ≤ offset.toNat ∧
      (∀ next, (lineStarts cs)[p.line.toNat + 1]? = some next → offset.toNat < next) ∧
      p.character.toNat = offset.toNat - start := by
  have hzero : (ofText cs).starts[0]? = some 0 := by
    rw [getElem?_starts]
    rfl
  have hall : Splits (ofText cs).starts offset 0 (ofText cs).starts.size :=
    ⟨fun h => absurd h (Nat.not_lt_zero _),
      fun hi h => absurd (Array.getElem?_eq_some_iff.mp h).1 (Nat.not_lt_of_le hi)⟩
  obtain ⟨hsize, hsplits⟩ :=
    bisect_splits (increasing_starts hcs) (Nat.zero_le _) (Nat.le_refl _) hall
  change (ofText cs).startedBy offset ≤ _ at hsize
  change Splits _ _ ((ofText cs).startedBy offset) ((ofText cs).startedBy offset) at hsplits
  unfold position
  cases hr : (ofText cs).startedBy offset with
  | zero =>
    rw [hr] at hsplits
    exact absurd UInt32.zero_le (UInt32.not_le.mpr (hsplits.above (Nat.le_refl 0) hzero))
  | succ line =>
    rw [hr] at hsize hsplits
    obtain ⟨a, ha⟩ : ∃ a, (ofText cs).starts[line]? = some a :=
      ⟨_, Array.getElem?_eq_getElem hsize⟩
    have hle : a ≤ offset := hsplits.below (Nat.lt_succ_self line) ha
    have hstart := toNat_of_starts hcs ha
    have hword : offset.toNat ≤ maxWord := Nat.le_of_lt_succ offset.toNat_lt
    have hline : (clampWord line).toNat = line := by
      have := index_le_of_lineStarts hstart
      have := UInt32.le_iff_toNat_le.mp hle
      rw [toNat_clampWord]
      omega
    refine ⟨⟨clampWord line, offset - a⟩, a.toNat, ?_, ?_, UInt32.le_iff_toNat_le.mp hle, ?_, ?_⟩
    · simp only [ha, checkedSub_eq_ok hle]
      rfl
    · rw [hline]
      exact hstart
    · rw [hline]
      intro next hnext
      obtain ⟨b, hb, rfl⟩ : ∃ b, (ofText cs).starts[line + 1]? = some b ∧ b.toNat = next := by
        have hb : (ofText cs).starts[line + 1]? = some (clampWord next) := by
          rw [getElem?_starts, hnext]
          rfl
        exact ⟨_, hb, Option.some.inj ((toNat_of_starts hcs hb).symm.trans hnext)⟩
      exact UInt32.lt_iff_toNat_lt.mp (hsplits.above (Nat.le_refl _) hb)
    · exact UInt32.toNat_sub_of_le _ _ hle

end LineTable

end SourceDiagnostics
