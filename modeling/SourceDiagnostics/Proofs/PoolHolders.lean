import Mathlib.Data.List.Nodup
import Mathlib.Logic.Function.Basic
import SourceDiagnostics.Report.Pool

/-!
A pool as its holders and what each of them holds.

Collectors, outcomes and lists are holders (`Pool.held`), and all that is done to them comes down to
two moves: a holder hands over all that it holds, or receives something at the end of it.

* `Hands.contents`, `Receives.contents`: what the two moves do to everything held;
* `hands_of_takeCollector`, `hands_of_takeOutcome`: taking out of a place hands over;
* `receives_setCollector` and those after it: what receives, in its place or as a new holder.
-/

namespace SourceDiagnostics

/-! ## Holders -/

/-- What holds diagnostics in a pool. -/
inductive Holder where
  | collector (index : Nat)
  | outcome (index : Nat)
  | list (index : Nat)
  deriving DecidableEq

def Holder.index : Holder → Nat
  | .collector c => c
  | .outcome o => o
  | .list l => l

def Place.holder : Place → Holder
  | .collector c => .collector c
  | .list l => .list l

namespace Pool

variable {ν : Type} {p q : Pool ν} {c o l : Nat} {ds : List Diagnostic} {h : Holder}

/-- What a holder holds. An empty place holds nothing, and neither does one that does not exist. -/
def held (p : Pool ν) : Holder → Option (List Diagnostic)
  | .collector c => (p.collector? c).map Collector.diagnostics
  | .outcome o => (p.outcome? o).map Outcome.diagnostics
  | .list l => p.list? l

/-- All holders that there have been. -/
def holders (p : Pool ν) : List Holder :=
  (List.range p.collectors.size).map .collector ++ (List.range p.outcomes.size).map .outcome ++
    (List.range p.lists.size).map .list

/-- Everything that is held. -/
def contents (p : Pool ν) : List Diagnostic := p.holders.flatMap fun h => (p.held h).getD []

/-- How many holders of the kind of `h` there have been. -/
def count (p : Pool ν) : Holder → Nat
  | .collector _ => p.collectors.size
  | .outcome _ => p.outcomes.size
  | .list _ => p.lists.size

theorem mem_holders : h ∈ p.holders ↔ h.index < p.count h := by
  cases h <;> simp [holders, count, Holder.index]

theorem nodup_holders (p : Pool ν) : p.holders.Nodup := by
  simp only [holders, List.nodup_append, List.mem_append, List.mem_map]
  refine ⟨⟨?_, ?_, ?_⟩, ?_, ?_⟩
  · exact List.nodup_range.map fun _ _ h => Holder.collector.inj h
  · exact List.nodup_range.map fun _ _ h => Holder.outcome.inj h
  · rintro _ ⟨c, _, rfl⟩ _ ⟨o, _, rfl⟩
    simp
  · exact List.nodup_range.map fun _ _ h => Holder.list.inj h
  · rintro _ (⟨c, _, rfl⟩ | ⟨o, _, rfl⟩) _ ⟨l, _, rfl⟩ <;> simp

theorem lt_of_collector? {col : Collector} (h : p.collector? c = some col) :
    c < p.collectors.size := by
  by_contra hc
  simp [collector?, Array.getElem?_eq_none (Nat.le_of_not_lt hc)] at h

theorem lt_of_outcome? {out : Outcome ν} (h : p.outcome? o = some out) : o < p.outcomes.size := by
  by_contra ho
  simp [outcome?, Array.getElem?_eq_none (Nat.le_of_not_lt ho)] at h

theorem mem_holders_of_held (h' : p.held h = some ds) : h ∈ p.holders := by
  cases h with
  | collector c =>
    obtain ⟨col, hcol, _⟩ := Option.map_eq_some_iff.mp h'
    exact mem_holders.mpr (lt_of_collector? hcol)
  | outcome o =>
    obtain ⟨out, hout, _⟩ := Option.map_eq_some_iff.mp h'
    exact mem_holders.mpr (lt_of_outcome? hout)
  | list l => exact mem_holders.mpr (Array.getElem?_eq_some_iff.mp h').1

/-! ## Handing over and receiving -/

/-- Holder `h` hands over all that it holds, and is empty from then on. -/
structure Hands (p : Pool ν) (h : Holder) (ds : List Diagnostic) (q : Pool ν) : Prop where
  held_eq : p.held h = some ds
  held_after : q.held = Function.update p.held h none
  holders_eq : q.holders = p.holders

/-- Holder `h` receives `ds` at the end of what it holds. It may be new. -/
structure Receives (p : Pool ν) (h : Holder) (ds : List Diagnostic) (q : Pool ν) : Prop where
  held_after : q.held = Function.update p.held h (some ((p.held h).getD [] ++ ds))
  holders_after : (p.held h).isSome ∧ q.holders = p.holders ∨
    h ∉ p.holders ∧ q.holders.Perm (h :: p.holders)

theorem held_of_not_mem (h' : h ∉ p.holders) : p.held h = none := by
  cases hp : p.held h with
  | none => rfl
  | some ds => exact absurd (mem_holders_of_held hp) h'

theorem contents_perm {rest : List Holder} (hrest : p.holders.Perm (h :: rest)) :
    p.contents.Perm ((p.held h).getD [] ++ rest.flatMap fun h => (p.held h).getD []) :=
  hrest.flatMap_right _

theorem flatMap_update {f : Holder → Option (List Diagnostic)} {rest : List Holder}
    {x : Option (List Diagnostic)} (h' : h ∉ rest) :
    (rest.flatMap fun k => (Function.update f h x k).getD []) =
      rest.flatMap fun k => (f k).getD [] := by
  refine List.flatMap_congr fun k hk => ?_
  have hne : k ≠ h := by
    rintro rfl
    exact h' hk
  rw [Function.update_of_ne hne]

/-- The contents of a pool after a change of what one holder holds. -/
theorem contents_update {rest : List Holder} {x : Option (List Diagnostic)}
    (hheld : q.held = Function.update p.held h x) (hrest : q.holders.Perm (h :: rest))
    (hnot : h ∉ rest) :
    q.contents.Perm (x.getD [] ++ rest.flatMap fun h => (p.held h).getD []) := by
  have hq := contents_perm hrest
  rwa [hheld, flatMap_update hnot, Function.update_self] at hq

theorem Hands.contents (hq : p.Hands h ds q) : p.contents.Perm (q.contents ++ ds) := by
  have hrest := List.perm_cons_erase (mem_holders_of_held hq.held_eq)
  have hbefore := contents_perm hrest
  have hafter := contents_update hq.held_after (hq.holders_eq ▸ hrest)
    p.nodup_holders.not_mem_erase
  rw [hq.held_eq] at hbefore
  exact hbefore.trans (List.perm_append_comm.trans (hafter.symm.append_right ds))

theorem Receives.contents (hq : p.Receives h ds q) : q.contents.Perm (p.contents ++ ds) := by
  rcases hq.holders_after with ⟨hsome, hholders⟩ | ⟨hnot, hholders⟩
  · obtain ⟨es, hes⟩ := Option.isSome_iff_exists.mp hsome
    have hrest := List.perm_cons_erase (mem_holders_of_held hes)
    have hbefore := contents_perm hrest
    have hafter := contents_update hq.held_after (hholders ▸ hrest) p.nodup_holders.not_mem_erase
    rw [Option.getD_some, List.append_assoc] at hafter
    refine hafter.trans (.trans ?_ (hbefore.symm.append_right ds))
    rw [List.append_assoc]
    exact List.perm_append_comm.append_left _
  · have hafter := contents_update hq.held_after hholders hnot
    rw [held_of_not_mem hnot] at hafter
    exact hafter.trans List.perm_append_comm

/-! ### The places of a pool -/

theorem collector?_setCollector {col : Collector} {x : Option Collector}
    (hc : p.collector? c = some col) (k : Nat) :
    (p.setCollector c x).collector? k = if k = c then x else p.collector? k := by
  have := lt_of_collector? hc
  unfold collector? setCollector
  grind

theorem outcome?_setOutcome {out : Outcome ν} {x : Option (Outcome ν)}
    (ho : p.outcome? o = some out) (k : Nat) :
    (p.setOutcome o x).outcome? k = if k = o then x else p.outcome? k := by
  have := lt_of_outcome? ho
  unfold outcome? setOutcome
  grind

/-- A change in the place of one holder. -/
theorem update_held {f : Nat → Holder} (hf : ∀ {k}, f k = f c → k = c)
    {x : Option (List Diagnostic)} (k : Nat) :
    Function.update p.held (f c) x (f k) = if k = c then x else p.held (f k) := by
  rcases eq_or_ne k c with rfl | hk
  · rw [Function.update_self, if_pos rfl]
  · rw [Function.update_of_ne fun h => hk (hf h), if_neg hk]

theorem held_setCollector {col : Collector} {x : Option Collector}
    (hc : p.collector? c = some col) :
    (p.setCollector c x).held =
      Function.update p.held (.collector c) (x.map Collector.diagnostics) := by
  funext k
  cases k with
  | collector k =>
    rw [update_held Holder.collector.inj, held, collector?_setCollector hc, held]
    exact apply_ite _ _ _ _
  | outcome k => rfl
  | list k => rfl

theorem held_setOutcome {out : Outcome ν} {x : Option (Outcome ν)} (ho : p.outcome? o = some out) :
    (p.setOutcome o x).held =
      Function.update p.held (.outcome o) (x.map Outcome.diagnostics) := by
  funext k
  cases k with
  | collector k => rfl
  | outcome k =>
    rw [update_held Holder.outcome.inj, held, outcome?_setOutcome ho, held]
    exact apply_ite _ _ _ _
  | list k => rfl

theorem held_setList {es : List Diagnostic} (hl : p.list? l = some es) :
    (p.setList l ds).held = Function.update p.held (.list l) (some ds) := by
  have := (Array.getElem?_eq_some_iff.mp hl).1
  funext k
  cases k with
  | collector k => rfl
  | outcome k => rfl
  | list k =>
    rw [update_held Holder.list.inj]
    unfold held list? setList
    grind

theorem held_pushCollector {col : Collector} :
    (p.pushCollector col).held =
      Function.update p.held (.collector p.collectors.size) (some col.diagnostics) := by
  funext k
  cases k with
  | collector k =>
    rw [update_held Holder.collector.inj]
    unfold held collector? pushCollector
    grind
  | outcome k => rfl
  | list k => rfl

theorem held_pushOutcome {out : Outcome ν} :
    (p.pushOutcome out).held =
      Function.update p.held (.outcome p.outcomes.size) (some out.diagnostics) := by
  funext k
  cases k with
  | collector k => rfl
  | outcome k =>
    rw [update_held Holder.outcome.inj]
    unfold held outcome? pushOutcome
    grind
  | list k => rfl

theorem held_pushList :
    (p.pushList ds).held = Function.update p.held (.list p.lists.size) (some ds) := by
  funext k
  cases k with
  | collector k => rfl
  | outcome k => rfl
  | list k =>
    rw [update_held Holder.list.inj]
    unfold held list? pushList
    grind

theorem holders_setCollector {x : Option Collector} : (p.setCollector c x).holders = p.holders := by
  simp [holders, setCollector]

theorem holders_setOutcome {x : Option (Outcome ν)} : (p.setOutcome o x).holders = p.holders := by
  simp [holders, setOutcome]

theorem holders_setList : (p.setList l ds).holders = p.holders := by
  simp [holders, setList]

theorem holders_pushCollector {col : Collector} :
    (p.pushCollector col).holders.Perm (.collector p.collectors.size :: p.holders) := by
  simp only [holders, pushCollector, Array.size_push, List.range_succ, List.map_append,
    List.append_assoc]
  exact List.perm_middle

theorem holders_pushOutcome {out : Outcome ν} :
    (p.pushOutcome out).holders.Perm (.outcome p.outcomes.size :: p.holders) := by
  simp only [holders, pushOutcome, Array.size_push, List.range_succ, List.map_append]
  rw [← List.append_assoc, List.append_assoc]
  exact List.perm_middle

theorem holders_pushList :
    (p.pushList ds).holders.Perm (.list p.lists.size :: p.holders) := by
  simp only [holders, pushList, Array.size_push, List.range_succ, List.map_append]
  rw [← List.append_assoc]
  exact List.perm_append_comm

theorem count_setCollector {x : Option Collector} : (p.setCollector c x).count h = p.count h := by
  cases h <;> simp [count, setCollector]

theorem count_setOutcome {x : Option (Outcome ν)} : (p.setOutcome o x).count h = p.count h := by
  cases h <;> simp [count, setOutcome]

/-! ### Handing over and receiving, place by place -/

theorem hands_of_takeCollector {taken : Collector} (h' : p.takeCollector c = some (taken, q)) :
    p.Hands (.collector c) taken.diagnostics q := by
  simp only [takeCollector, Option.map_eq_some_iff, Prod.mk.injEq] at h'
  obtain ⟨_, hc, rfl, rfl⟩ := h'
  exact ⟨by rw [held, hc]; rfl, held_setCollector hc, holders_setCollector⟩

theorem hands_of_takeOutcome {taken : Outcome ν} (h' : p.takeOutcome o = some (taken, q)) :
    p.Hands (.outcome o) taken.diagnostics q := by
  simp only [takeOutcome, Option.map_eq_some_iff, Prod.mk.injEq] at h'
  obtain ⟨_, ho, rfl, rfl⟩ := h'
  exact ⟨by rw [held, ho]; rfl, held_setOutcome ho, holders_setOutcome⟩

theorem count_of_takeCollector {taken : Collector} (h' : p.takeCollector c = some (taken, q)) :
    q.count h = p.count h := by
  obtain ⟨_, _, hq⟩ := Option.map_eq_some_iff.mp h'
  obtain ⟨-, rfl⟩ := Prod.mk.inj hq
  exact count_setCollector

theorem count_of_takeOutcome {taken : Outcome ν} (h' : p.takeOutcome o = some (taken, q)) :
    q.count h = p.count h := by
  obtain ⟨_, _, hq⟩ := Option.map_eq_some_iff.mp h'
  obtain ⟨-, rfl⟩ := Prod.mk.inj hq
  exact count_setOutcome

theorem receives_setCollector {col : Collector} (hc : p.collector? c = some col) :
    p.Receives (.collector c) ds (p.setCollector c (some (col.extend ds))) where
  held_after := by rw [held_setCollector hc, held, hc]; rfl
  holders_after := .inl ⟨by rw [held, hc]; rfl, holders_setCollector⟩

theorem receives_setList {es : List Diagnostic} (hl : p.list? l = some es) :
    p.Receives (.list l) ds (p.setList l (es ++ ds)) where
  held_after := by rw [held_setList hl, held, hl]; rfl
  holders_after := .inl ⟨by rw [held, hl]; rfl, holders_setList⟩

/-- What holds a value keeps its diagnostics when the value changes. -/
theorem receives_setOutcome {out : Outcome ν} {change : ν → ν} (ho : p.outcome? o = some out) :
    p.Receives (.outcome o) [] (p.setOutcome o (some (out.map change))) where
  held_after := by rw [held_setOutcome ho, held, ho, List.append_nil]; rfl
  holders_after := .inl ⟨by rw [held, ho]; rfl, holders_setOutcome⟩

/-- A new holder receives the first that it holds. -/
theorem receives_of_new (hnot : h ∉ p.holders)
    (hheld : q.held = Function.update p.held h (some ds))
    (hholders : q.holders.Perm (h :: p.holders)) : p.Receives h ds q where
  held_after := by rw [hheld, held_of_not_mem hnot]; rfl
  holders_after := .inr ⟨hnot, hholders⟩

theorem receives_pushCollector {col : Collector} :
    p.Receives (.collector p.collectors.size) col.diagnostics (p.pushCollector col) :=
  receives_of_new (by simp [mem_holders, count, Holder.index]) held_pushCollector
    holders_pushCollector

theorem receives_pushOutcome (out : Outcome ν) :
    p.Receives (.outcome p.outcomes.size) out.diagnostics (p.pushOutcome out) :=
  receives_of_new (by simp [mem_holders, count, Holder.index]) held_pushOutcome holders_pushOutcome

theorem receives_pushList : p.Receives (.list p.lists.size) ds (p.pushList ds) :=
  receives_of_new (by simp [mem_holders, count, Holder.index]) held_pushList holders_pushList

end Pool

end SourceDiagnostics
