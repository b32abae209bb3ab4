import SourceDiagnostics.Proofs.PoolHolders

/-!
What one step does to a pool.

But for copies and releases, a step hands on what one holder held, if it consumes one, and adds what
it records itself; one holder receives both.

* `Pool.run_step`: a step announces what it records on a collector, and changes the pool as
  `Pool.after` says;
* `Pool.after_isSome_iff`: a step is refused only for want of a holder that it uses;
* `Pool.receives_of_after`: what an accepted step hands over and who receives it;
* `Pool.contents_step`, `Pool.spent_step`, `Pool.count_step`, `Pool.held_step`: what of it shows in
  everything held, in the holders consumed and made, and in a single holder.
-/

namespace SourceDiagnostics

/-! ## Announcements -/

/-- Announce more events. -/
def Journal.announcing (j : Journal) (es : List Event) : Journal :=
  { j with events := j.events ++ es }

theorem Journal.announcing_nil (j : Journal) : j.announcing [] = j := by
  simp [announcing]

theorem Journal.announcing_announcing (j : Journal) (es fs : List Event) :
    (j.announcing es).announcing fs = j.announcing (es ++ fs) := by
  simp [announcing]

/-- The announcement that a diagnostic was recorded. -/
def Diagnostic.collected (d : Diagnostic) : Event :=
  ⟨.trace, [("message", "diagnostic collected"), ("code", d.code.text),
    ("severity", d.severity.text)]⟩

/-! ## Steps -/

namespace PoolStep

variable {ν : Type}

/-- The diagnostics that a step records, as opposed to those that it takes from another holder. -/
def recorded : PoolStep ν → List Diagnostic
  | .add _ d => [d]
  | .report _ d => [d]
  | .deprecated _ notice target =>
    [{ code := ⟨"deprecated"⟩, severity := .warning, message := "Deprecated: " ++ notice, target }]
  | .extend _ ds => ds
  | .pipeOutcome _ outcome => outcome.diagnostics
  | .newList ds => ds
  | .newOutcome outcome => outcome.diagnostics
  | _ => []

/-- What a step announces. -/
def traces : PoolStep ν → List Event
  | .add _ d => [d.collected]
  | .report (.collector _) d => [d.collected]
  | .deprecated (.collector _) _ _ =>
    [⟨.trace, [("message", "diagnostic collected"), ("code", "deprecated"),
      ("severity", "warning")]⟩]
  | _ => []

/-- The holders that a step names. -/
def uses : PoolStep ν → List Holder
  | .newCollector => []
  | .copy c => [.collector c]
  | .add c _ => [.collector c]
  | .report place _ => [place.holder]
  | .deprecated place _ _ => [place.holder]
  | .extend c _ => [.collector c]
  | .absorb c other => [.collector c, .collector other]
  | .pipe c o => [.collector c, .outcome o]
  | .pipeOutcome c _ => [.collector c]
  | .wrap c _ => [.collector c]
  | .unload c => [.collector c]
  | .newList _ => []
  | .newOutcome _ => []
  | .mapOutcome o _ => [.outcome o]
  | .release o => [.outcome o]

/-- The holder that a step consumes. -/
def consumes : PoolStep ν → Option Holder
  | .absorb _ other => some (.collector other)
  | .pipe _ o => some (.outcome o)
  | .wrap c _ => some (.collector c)
  | .unload c => some (.collector c)
  | .release o => some (.outcome o)
  | _ => none

/-- The step makes a new holder of the kind of the given one. -/
def makes : PoolStep ν → Holder → Bool
  | .newCollector, .collector _ => true
  | .copy _, .collector _ => true
  | .wrap _ _, .outcome _ => true
  | .newOutcome _, .outcome _ => true
  | .unload _, .list _ => true
  | .newList _, .list _ => true
  | _, _ => false

/-- The step makes no copy, and hands nothing out of the pool. -/
def Keeps : PoolStep ν → Prop
  | .copy _ => False
  | .release _ => False
  | _ => True

/-- The holder that receives what a step records and what it takes. -/
def target (p : Pool ν) : PoolStep ν → Holder
  | .add c _ => .collector c
  | .report place _ => place.holder
  | .deprecated place _ _ => place.holder
  | .extend c _ => .collector c
  | .absorb c _ => .collector c
  | .pipe c _ => .collector c
  | .pipeOutcome c _ => .collector c
  | .mapOutcome o _ => .outcome o
  | .wrap _ _ => .outcome p.outcomes.size
  | .newOutcome _ => .outcome p.outcomes.size
  | .release o => .outcome o
  | .unload _ => .list p.lists.size
  | .newList _ => .list p.lists.size
  | .newCollector => .collector p.collectors.size
  | .copy _ => .collector p.collectors.size

end PoolStep

namespace Pool

variable {ν : Type} {p q : Pool ν} {c o l : Nat} {ds : List Diagnostic} {s : PoolStep ν}
  {h x : Holder}

/-! ## What a step makes of a pool -/

/-- Add diagnostics to what a collector or a list holds. -/
def give (p : Pool ν) (place : Place) (ds : List Diagnostic) : Option (Pool ν) :=
  match place with
  | .collector c => (p.collector? c).map fun col => p.setCollector c (some (col.extend ds))
  | .list l => (p.list? l).map fun es => p.setList l (es ++ ds)

/-- What a step makes of a pool, if it is accepted. -/
def after (p : Pool ν) : PoolStep ν → Option (Pool ν)
  | .newCollector => some (p.pushCollector {})
  | .copy c => (p.collector? c).map p.pushCollector
  | .add c d => p.give (.collector c) [d]
  | .report place d => p.give place [d]
  | s@(.deprecated place _ _) => p.give place s.recorded
  | .extend c ds => p.give (.collector c) ds
  | .absorb c other =>
    (p.takeCollector other).bind fun r => r.2.give (.collector c) r.1.diagnostics
  | .pipe c o => (p.takeOutcome o).bind fun r => r.2.give (.collector c) r.1.diagnostics
  | .pipeOutcome c outcome => p.give (.collector c) outcome.diagnostics
  | .wrap c value => (p.takeCollector c).map fun r => r.2.pushOutcome (r.1.wrap value)
  | .unload c => (p.takeCollector c).map fun r => r.2.pushList r.1.diagnostics
  | .newList ds => some (p.pushList ds)
  | .newOutcome outcome => some (p.pushOutcome outcome)
  | .mapOutcome o change =>
    (p.outcome? o).map fun outcome => p.setOutcome o (some (outcome.map change))
  | .release o => (p.takeOutcome o).map Prod.snd

theorem run_updateCollector {f : Collector → Journaled Collector} {es : List Event}
    (hf : ∀ col j, (f col).run j = (col.extend ds, j.announcing es)) (j : Journal) :
    (p.updateCollector c f).run j = (p.give (.collector c) ds,
      if (p.give (.collector c) ds).isSome then j.announcing es else j) := by
  cases hc : p.collector? c with
  | none =>
    simp only [updateCollector, give, hc]
    rfl
  | some col =>
    simp only [updateCollector, give, hc]
    exact congrArg (fun r => (some (p.setCollector c (some r.1)), r.2)) (hf col j)

theorem run_updateList {f : List Diagnostic → Journaled (List Diagnostic)}
    (hf : ∀ es j, (f es).run j = (es ++ ds, j)) (j : Journal) :
    (p.updateList l f).run j = (p.give (.list l) ds, j) := by
  cases hl : p.list? l with
  | none =>
    simp only [updateList, give, hl]
    rfl
  | some es =>
    simp only [updateList, give, hl]
    exact congrArg (fun r => (some (p.setList l r.1), r.2)) (hf es j)

/-- **A step announces what it records on a collector, and nothing more.** A refused step announces
nothing. -/
theorem run_step (p : Pool ν) (s : PoolStep ν) (j : Journal) :
    (p.step s).run j =
      (p.after s, if (p.after s).isSome then j.announcing s.traces else j) := by
  have quiet (b : Bool) (hs : s.traces = []) : (if b then j.announcing s.traces else j) = j := by
    rw [hs, j.announcing_nil, ite_self]
  have extended (col : Collector) (ds : List Diagnostic) (j : Journal) :
      (pure (col.extend ds) : Journaled Collector).run j = (col.extend ds, j.announcing []) := by
    rw [j.announcing_nil]
    rfl
  cases s with
  | add c d => exact run_updateCollector (fun _ _ => rfl) j
  | report place d =>
    cases place with
    | collector c => exact run_updateCollector (fun _ _ => rfl) j
    | list l =>
      rw [quiet _ rfl]
      exact run_updateList (fun _ _ => rfl) j
  | deprecated place notice target =>
    cases place with
    | collector c => exact run_updateCollector (fun _ _ => rfl) j
    | list l =>
      rw [quiet _ rfl]
      exact run_updateList (fun _ _ => rfl) j
  | extend c ds => exact run_updateCollector (extended · ds) j
  | pipeOutcome c outcome => exact run_updateCollector (extended · outcome.diagnostics) j
  | absorb c other =>
    cases ht : p.takeCollector other with
    | none =>
      simp only [step, after, ht]
      rfl
    | some r =>
      simp only [step, after, ht]
      exact run_updateCollector (extended · r.1.diagnostics) j
  | pipe c o =>
    cases ht : p.takeOutcome o with
    | none =>
      simp only [step, after, ht]
      rfl
    | some r =>
      simp only [step, after, ht]
      exact run_updateCollector (extended · r.1.diagnostics) j
  | _ =>
    rw [quiet _ rfl]
    rfl

/-! ## Acceptance -/

theorem isSome_held_collector : (p.held (.collector c)).isSome = (p.collector? c).isSome :=
  Option.isSome_map

theorem isSome_held_outcome : (p.held (.outcome o)).isSome = (p.outcome? o).isSome :=
  Option.isSome_map

theorem isSome_give (place : Place) :
    (p.give place ds).isSome = (p.held place.holder).isSome := by
  cases place with
  | collector c => exact Option.isSome_map.trans isSome_held_collector.symm
  | list l => exact Option.isSome_map

/-- What a collector receives after a holder handed over what it held. -/
theorem isSome_give_after_hands {moved : List Diagnostic} (hq : p.Hands h moved q) :
    (q.give (.collector c) ds).isSome ↔
      .collector c ≠ h ∧ (p.held (.collector c)).isSome := by
  rw [isSome_give, hq.held_after]
  rcases eq_or_ne (Holder.collector c) h with rfl | hne
  · simp [Place.holder]
  · simp [Place.holder, hne]

/-- **A step is refused only for want of a holder.** A step is accepted if it names each holder once
and all of them hold something, if only the empty list. -/
theorem after_isSome_iff (p : Pool ν) (s : PoolStep ν) :
    (p.after s).isSome ↔ s.uses.Nodup ∧ ∀ h ∈ s.uses, (p.held h).isSome := by
  cases s with
  | newCollector => simp [after, PoolStep.uses]
  | copy c => simp [after, PoolStep.uses, isSome_held_collector]
  | add c d => simp [after, PoolStep.uses, isSome_give, Place.holder]
  | report place d => simp [after, PoolStep.uses, isSome_give]
  | deprecated place notice target => simp [after, PoolStep.uses, isSome_give]
  | extend c ds => simp [after, PoolStep.uses, isSome_give, Place.holder]
  | absorb c other =>
    cases ht : p.takeCollector other with
    | none =>
      have : p.collector? other = none := Option.map_eq_none_iff.mp ht
      simp [after, PoolStep.uses, ht, isSome_held_collector, this]
    | some r =>
      have hands := hands_of_takeCollector ht
      simp [after, PoolStep.uses, ht, isSome_give_after_hands hands, hands.held_eq]
  | pipe c o =>
    cases ht : p.takeOutcome o with
    | none =>
      have : p.outcome? o = none := Option.map_eq_none_iff.mp ht
      simp [after, PoolStep.uses, ht, isSome_held_outcome, this]
    | some r =>
      have hands := hands_of_takeOutcome ht
      simp [after, PoolStep.uses, ht, isSome_give_after_hands hands, hands.held_eq]
  | pipeOutcome c outcome => simp [after, PoolStep.uses, isSome_give, Place.holder]
  | wrap c value => simp [after, PoolStep.uses, takeCollector, isSome_held_collector]
  | unload c => simp [after, PoolStep.uses, takeCollector, isSome_held_collector]
  | newList ds => simp [after, PoolStep.uses]
  | newOutcome outcome => simp [after, PoolStep.uses]
  | mapOutcome o change => simp [after, PoolStep.uses, isSome_held_outcome]
  | release o => simp [after, PoolStep.uses, takeOutcome, isSome_held_outcome]

/-! ## What an accepted step does -/

theorem count_of_give (place : Place) (h' : p.give place ds = some q) : q.count h = p.count h := by
  cases place with
  | collector c =>
    obtain ⟨col, _, rfl⟩ := Option.map_eq_some_iff.mp h'
    exact count_setCollector
  | list l =>
    obtain ⟨es, _, rfl⟩ := Option.map_eq_some_iff.mp h'
    cases h <;> simp [count, setList]

theorem receives_of_give (place : Place) (h' : p.give place ds = some q) :
    p.Receives place.holder ds q := by
  cases place with
  | collector c =>
    obtain ⟨col, hc, rfl⟩ := Option.map_eq_some_iff.mp h'
    exact receives_setCollector hc
  | list l =>
    obtain ⟨es, hl, rfl⟩ := Option.map_eq_some_iff.mp h'
    exact receives_setList hl

/-- An accepted step that keeps everything adds what it records to one holder, or records nothing
and moves to one holder all that the holder which it consumes held. -/
theorem receives_of_after (hs : s.Keeps) (h' : p.after s = some q) :
    (s.consumes = none ∧ p.Receives (s.target p) s.recorded q) ∨
      (s.recorded = [] ∧ ∃ h moved mid, s.consumes = some h ∧ p.Hands h moved mid ∧
        mid.Receives (s.target p) moved q) := by
  cases s with
  | newCollector =>
    obtain rfl := Option.some.inj h'
    exact .inl ⟨rfl, receives_pushCollector⟩
  | copy c => exact hs.elim
  | add c d => exact .inl ⟨rfl, receives_of_give (.collector c) h'⟩
  | report place d => exact .inl ⟨rfl, receives_of_give place h'⟩
  | deprecated place notice target => exact .inl ⟨rfl, receives_of_give place h'⟩
  | extend c ds => exact .inl ⟨rfl, receives_of_give (.collector c) h'⟩
  | absorb c other =>
    obtain ⟨⟨taken, mid⟩, ht, hgive⟩ := Option.bind_eq_some_iff.mp h'
    have hreceives := receives_of_give (.collector c) hgive
    exact .inr ⟨rfl, _, _, mid, rfl, hands_of_takeCollector ht, hreceives⟩
  | pipe c o =>
    obtain ⟨⟨taken, mid⟩, ht, hgive⟩ := Option.bind_eq_some_iff.mp h'
    have hreceives := receives_of_give (.collector c) hgive
    exact .inr ⟨rfl, _, _, mid, rfl, hands_of_takeOutcome ht, hreceives⟩
  | pipeOutcome c outcome => exact .inl ⟨rfl, receives_of_give (.collector c) h'⟩
  | wrap c value =>
    obtain ⟨⟨taken, mid⟩, ht, rfl⟩ := Option.map_eq_some_iff.mp h'
    refine .inr ⟨rfl, _, _, mid, rfl, hands_of_takeCollector ht, ?_⟩
    have hsize : mid.outcomes.size = p.outcomes.size := count_of_takeCollector (h := .outcome 0) ht
    rw [PoolStep.target, ← hsize]
    exact receives_pushOutcome (taken.wrap value)
  | unload c =>
    obtain ⟨⟨taken, mid⟩, ht, rfl⟩ := Option.map_eq_some_iff.mp h'
    refine .inr ⟨rfl, _, _, mid, rfl, hands_of_takeCollector ht, ?_⟩
    have hsize : mid.lists.size = p.lists.size := count_of_takeCollector (h := .list 0) ht
    rw [PoolStep.target, ← hsize]
    exact receives_pushList
  | newList ds =>
    obtain rfl := Option.some.inj h'
    exact .inl ⟨rfl, receives_pushList⟩
  | newOutcome outcome =>
    obtain rfl := Option.some.inj h'
    exact .inl ⟨rfl, receives_pushOutcome outcome⟩
  | mapOutcome o change =>
    obtain ⟨out, ho, rfl⟩ := Option.map_eq_some_iff.mp h'
    exact .inl ⟨rfl, receives_setOutcome ho⟩
  | release o => exact hs.elim

/-- **A step loses nothing and makes up nothing.** -/
theorem contents_step (hs : s.Keeps) (h' : p.after s = some q) :
    q.contents.Perm (p.contents ++ s.recorded) := by
  rcases receives_of_after hs h' with ⟨_, hreceives⟩ | ⟨hrec, h, moved, mid, _, hhands, hreceives⟩
  · exact hreceives.contents
  · rw [hrec, List.append_nil]
    exact hreceives.contents.trans hhands.contents.symm

/-- What a step gives to a holder: what it records and what it takes, if that holder is the one that
receives it. -/
def given (p : Pool ν) (s : PoolStep ν) (x : Holder) : List Diagnostic :=
  if s.target p = x then s.recorded ++ (s.consumes.bind p.held).getD [] else []

/-- The holder has been consumed. -/
def Spent (p : Pool ν) (x : Holder) : Prop := x ∈ p.holders ∧ p.held x = none

theorem Receives.held_self (hq : p.Receives h ds q) :
    q.held h = some ((p.held h).getD [] ++ ds) := by
  rw [hq.held_after, Function.update_self]

/-- Nothing that is spent receives anything, and nothing is spent by it. -/
theorem Receives.spent_iff (hq : p.Receives h ds q) : q.Spent x ↔ p.Spent x := by
  rcases eq_or_ne x h with rfl | hne
  · refine ⟨fun hx => ?_, fun hx => ?_⟩
    · rw [Spent, hq.held_self] at hx
      cases hx.2
    · rcases hq.holders_after with ⟨hsome, _⟩ | ⟨hnot, _⟩
      · rw [hx.2] at hsome
        cases hsome
      · exact absurd hx.1 hnot
  · unfold Spent
    rw [hq.held_after, Function.update_of_ne hne]
    rcases hq.holders_after with ⟨_, hholders⟩ | ⟨_, hholders⟩
    · rw [hholders]
    · rw [hholders.mem_iff, List.mem_cons, or_iff_right hne]

theorem Hands.spent_iff (hq : p.Hands h ds q) : q.Spent x ↔ p.Spent x ∨ x = h := by
  unfold Spent
  rw [hq.held_after, hq.holders_eq]
  rcases eq_or_ne x h with rfl | hne
  · simpa using mem_holders_of_held hq.held_eq
  · rw [Function.update_of_ne hne, or_iff_left hne]

theorem Receives.held_getD (hq : p.Receives h ds q) (x : Holder) :
    (q.held x).getD [] = (p.held x).getD [] ++ if h = x then ds else [] := by
  rw [hq.held_after]
  rcases eq_or_ne x h with rfl | hne
  · rw [Function.update_self, if_pos rfl, Option.getD_some]
  · rw [Function.update_of_ne hne, if_neg hne.symm, List.append_nil]

/-- Exactly the holder that a step consumes is spent by it. -/
theorem spent_step (hs : s.Keeps) (h' : p.after s = some q) :
    q.Spent x ↔ p.Spent x ∨ s.consumes = some x := by
  rcases receives_of_after hs h' with
    ⟨hcons, hreceives⟩ | ⟨_, h, moved, mid, hcons, hhands, hreceives⟩
  · rw [hreceives.spent_iff, hcons]
    simp
  · rw [hreceives.spent_iff, hhands.spent_iff, hcons, Option.some_inj, eq_comm]

/-- A step makes at most one holder, at the end of those of its kind. -/
theorem count_step (h' : p.after s = some q) :
    q.count x = p.count x + if s.makes x then 1 else 0 := by
  cases s with
  | newCollector =>
    obtain rfl := Option.some.inj h'
    cases x <;> simp [count, pushCollector, PoolStep.makes]
  | copy c =>
    obtain ⟨col, _, rfl⟩ := Option.map_eq_some_iff.mp h'
    cases x <;> simp [count, pushCollector, PoolStep.makes]
  | add c d => exact count_of_give (.collector c) h'
  | report place d => exact count_of_give place h'
  | deprecated place notice target => exact count_of_give place h'
  | extend c ds => exact count_of_give (.collector c) h'
  | absorb c other =>
    obtain ⟨r, ht, hgive⟩ := Option.bind_eq_some_iff.mp h'
    exact (count_of_give (.collector c) hgive).trans (count_of_takeCollector ht)
  | pipe c o =>
    obtain ⟨r, ht, hgive⟩ := Option.bind_eq_some_iff.mp h'
    exact (count_of_give (.collector c) hgive).trans (count_of_takeOutcome ht)
  | pipeOutcome c outcome => exact count_of_give (.collector c) h'
  | wrap c value =>
    obtain ⟨r, ht, rfl⟩ := Option.map_eq_some_iff.mp h'
    rw [← count_of_takeCollector ht]
    cases x <;> simp [count, pushOutcome, PoolStep.makes]
  | unload c =>
    obtain ⟨r, ht, rfl⟩ := Option.map_eq_some_iff.mp h'
    rw [← count_of_takeCollector ht]
    cases x <;> simp [count, pushList, PoolStep.makes]
  | newList ds =>
    obtain rfl := Option.some.inj h'
    cases x <;> simp [count, pushList, PoolStep.makes]
  | newOutcome outcome =>
    obtain rfl := Option.some.inj h'
    cases x <;> simp [count, pushOutcome, PoolStep.makes]
  | mapOutcome o change =>
    obtain ⟨out, _, rfl⟩ := Option.map_eq_some_iff.mp h'
    exact count_setOutcome
  | release o =>
    obtain ⟨r, ht, rfl⟩ := Option.map_eq_some_iff.mp h'
    exact count_of_takeOutcome ht

/-- **What a holder is given comes at the end of what it holds.** -/
theorem held_step (hs : s.Keeps) (h' : p.after s = some q) (hx : ¬ q.Spent x) :
    (q.held x).getD [] = (p.held x).getD [] ++ p.given s x := by
  unfold given
  rcases receives_of_after hs h' with
    ⟨hcons, hreceives⟩ | ⟨hrec, h, moved, mid, hcons, hhands, hreceives⟩
  · rw [hcons, Option.bind_none, Option.getD_none, List.append_nil]
    exact hreceives.held_getD x
  · have hne : x ≠ h := by
      rintro rfl
      exact hx (hreceives.spent_iff.mpr (hhands.spent_iff.mpr (.inr rfl)))
    rw [hrec, hcons, Option.bind_some, hhands.held_eq, Option.getD_some, List.nil_append,
      hreceives.held_getD, hhands.held_after, Function.update_of_ne hne]

end Pool

end SourceDiagnostics
