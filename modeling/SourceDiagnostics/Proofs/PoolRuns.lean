import SourceDiagnostics.Proofs.PassOrder
import SourceDiagnostics.Proofs.PoolSteps

/-!
Runs over pools: nothing is lost, and the order of independent passes does not matter.

* `Pool.proper_iff`: a run is accepted if it names its holders properly, and only then;
* `Pool.contents_run`, `Pool.held_run`: what the steps recorded is what the holders hold, each of
  them what it was given, in order;
* `Pool.afterAll_recording`: recording steps add to their collectors, in whichever order they come;
* `Pool.run_conserves`: a proper run conserves what is recorded, and ends the same for all
  interleavings of the passes that it starts with.
-/

namespace SourceDiagnostics

namespace PoolStep

variable {ν : Type}

/-- The collector that a step records something on. -/
def recordsOn : PoolStep ν → Option Nat
  | .add c _ => some c
  | .report (.collector c) _ => some c
  | .deprecated (.collector c) _ _ => some c
  | .extend c _ => some c
  | .pipeOutcome c _ => some c
  | _ => none

end PoolStep

namespace Pool

variable {ν : Type} {p q : Pool ν} {s : PoolStep ν} {steps before rest : List (PoolStep ν)}
  {x : Holder} {c : Nat}

/-! ## Runs -/

/-- Do steps one after another, up to the first that is refused. -/
def run (p : Pool ν) : List (PoolStep ν) → Journaled (Option (Pool ν))
  | [] => return some p
  | s :: rest => do
    match ← p.step s with
    | none => return none
    | some q => q.run rest

/-- What steps make of a pool, if all of them are accepted. -/
def afterAll (p : Pool ν) (steps : List (PoolStep ν)) : Option (Pool ν) := steps.foldlM after p

/-- What steps give to a holder, in their order. -/
def gifts (p : Pool ν) : List (PoolStep ν) → Holder → List Diagnostic
  | [], _ => []
  | s :: rest, x => p.given s x ++ (p.after s).elim [] fun q => q.gifts rest x

/-- Every step names each of its holders once, and none that does not exist yet or that was consumed
before. -/
def Proper (p : Pool ν) (steps : List (PoolStep ν)) : Prop :=
  ∀ before s rest, steps = before ++ s :: rest → s.uses.Nodup ∧ ∀ x ∈ s.uses,
    x.index < p.count x + before.countP (·.makes x) ∧ ¬ p.Spent x ∧
      ∀ r ∈ before, r.consumes ≠ some x

theorem afterAll_cons : p.afterAll (s :: rest) = (p.after s).bind fun q => q.afterAll rest := by
  rw [afterAll, List.foldlM_cons]
  rfl

theorem exists_of_afterAll_cons (h : p.afterAll (s :: rest) = some q) :
    ∃ mid, p.after s = some mid ∧ mid.afterAll rest = some q :=
  Option.bind_eq_some_iff.mp (afterAll_cons.symm.trans h)

theorem afterAll_append :
    p.afterAll (before ++ rest) = (p.afterAll before).bind fun q => q.afterAll rest := by
  rw [afterAll, List.foldlM_append]
  rfl

theorem run_cons_of_refused (h : p.after s = none) (j : Journal) :
    (p.run (s :: rest)).run j = (none, j) := by
  have hstep := p.run_step s j
  rw [h] at hstep
  rw [run, StateT.run_bind, hstep]
  rfl

theorem run_cons_of_accepted (h : p.after s = some q) (j : Journal) :
    (p.run (s :: rest)).run j = (q.run rest).run (j.announcing s.traces) := by
  have hstep := p.run_step s j
  rw [h] at hstep
  rw [run, StateT.run_bind, hstep]
  rfl

/-- The pool that a run ends with does not depend on the journal. -/
theorem fst_run (p : Pool ν) (steps : List (PoolStep ν)) (j : Journal) :
    ((p.run steps).run j).1 = p.afterAll steps := by
  induction steps generalizing p j with
  | nil => rfl
  | cons s rest ih =>
    rw [afterAll_cons]
    cases h : p.after s with
    | none => rw [run_cons_of_refused h]; rfl
    | some q => rw [run_cons_of_accepted h, ih]; rfl

/-- **An accepted run announces what its steps announce, and nothing more.** -/
theorem run_of_afterAll (h : p.afterAll steps = some q) (j : Journal) :
    (p.run steps).run j = (some q, j.announcing (steps.flatMap PoolStep.traces)) := by
  induction steps generalizing p j with
  | nil =>
    obtain rfl := Option.some.inj h
    rw [List.flatMap_nil, j.announcing_nil]
    rfl
  | cons s rest ih =>
    obtain ⟨mid, hmid, hrest⟩ := exists_of_afterAll_cons h
    rw [run_cons_of_accepted hmid, ih hrest, Journal.announcing_announcing, List.flatMap_cons]

/-! ## Acceptance -/

theorem isSome_held_iff : (p.held x).isSome ↔ x.index < p.count x ∧ ¬ p.Spent x := by
  rw [← mem_holders, Spent, ← Option.not_isSome_iff_eq_none]
  refine ⟨fun h => ?_, by tauto⟩
  obtain ⟨ds, hds⟩ := Option.isSome_iff_exists.mp h
  have := mem_holders_of_held hds
  tauto

theorem Proper.accepts (h : p.Proper (s :: rest)) : (p.after s).isSome := by
  obtain ⟨hnodup, huses⟩ := h [] s rest rfl
  refine (p.after_isSome_iff s).mpr ⟨hnodup, fun x hx => isSome_held_iff.mpr ?_⟩
  obtain ⟨hcount, hspent, _⟩ := huses x hx
  exact ⟨hcount, hspent⟩

theorem proper_cons (hs : s.Keeps) (h : p.after s = some q) :
    p.Proper (s :: rest) ↔ q.Proper rest := by
  have hafter : ∀ before x,
      x.index < p.count x + (s :: before).countP (·.makes x) ∧ ¬ p.Spent x ∧
        (∀ r ∈ s :: before, r.consumes ≠ some x) ↔
      x.index < q.count x + before.countP (·.makes x) ∧ ¬ q.Spent x ∧
        ∀ r ∈ before, r.consumes ≠ some x := by
    intro before x
    rw [count_step h, spent_step hs h, List.countP_cons, List.forall_mem_cons, Nat.add_assoc,
      Nat.add_comm (before.countP _)]
    tauto
  constructor
  · rintro hproper before r after rfl
    obtain ⟨hnodup, huses⟩ := hproper (s :: before) r after rfl
    exact ⟨hnodup, fun x hx => (hafter before x).mp (huses x hx)⟩
  · rintro hproper (_ | ⟨_, before⟩) r after heq
    · obtain ⟨rfl, rfl⟩ := List.cons.inj heq
      obtain ⟨hnodup, huses⟩ := (p.after_isSome_iff s).mp (h ▸ rfl)
      refine ⟨hnodup, fun x hx => ?_⟩
      obtain ⟨hcount, hspent⟩ := isSome_held_iff.mp (huses x hx)
      exact ⟨hcount, hspent, by simp⟩
    · obtain ⟨rfl, rfl⟩ := List.cons.inj heq
      obtain ⟨hnodup, huses⟩ := hproper before r after rfl
      exact ⟨hnodup, fun x hx => (hafter before x).mpr (huses x hx)⟩

theorem Proper.of_append (h : p.Proper (before ++ rest)) : p.Proper before := by
  rintro first s last rfl
  exact h first s (last ++ rest) (by simp)

/-- **Proper runs are those that are accepted.** -/
theorem proper_iff (hs : ∀ s ∈ steps, s.Keeps) :
    p.Proper steps ↔ (p.afterAll steps).isSome := by
  induction steps generalizing p with
  | nil => simp [Proper, afterAll]
  | cons s rest ih =>
    obtain ⟨hkeeps, hs⟩ := List.forall_mem_cons.mp hs
    rw [afterAll_cons]
    cases h : p.after s with
    | none =>
      refine iff_of_false (fun hproper => ?_) (by simp)
      have := hproper.accepts
      rw [h] at this
      cases this
    | some q =>
      rw [proper_cons hkeeps h, ih hs]
      rfl

/-! ## What a run holds -/

/-- **A run loses nothing and makes up nothing.** -/
theorem contents_run (hs : ∀ s ∈ steps, s.Keeps) (h : p.afterAll steps = some q) :
    q.contents.Perm (p.contents ++ steps.flatMap PoolStep.recorded) := by
  induction steps generalizing p with
  | nil =>
    obtain rfl := Option.some.inj h
    rw [List.flatMap_nil, List.append_nil]
  | cons s rest ih =>
    obtain ⟨mid, hmid, hrest⟩ := exists_of_afterAll_cons h
    obtain ⟨hkeeps, hs⟩ := List.forall_mem_cons.mp hs
    rw [List.flatMap_cons, ← List.append_assoc]
    exact (ih hs hrest).trans ((contents_step hkeeps hmid).append_right _)

/-- A holder is spent after a run if it was before or if a step consumed it. -/
theorem spent_run (hs : ∀ s ∈ steps, s.Keeps) (h : p.afterAll steps = some q) :
    q.Spent x ↔ p.Spent x ∨ ∃ s ∈ steps, s.consumes = some x := by
  induction steps generalizing p with
  | nil =>
    obtain rfl := Option.some.inj h
    simp
  | cons s rest ih =>
    obtain ⟨mid, hmid, hrest⟩ := exists_of_afterAll_cons h
    obtain ⟨hkeeps, hs⟩ := List.forall_mem_cons.mp hs
    rw [ih hs hrest, spent_step hkeeps hmid, List.exists_mem_cons_iff, or_assoc]

/-- **Each holder holds what it was given, in order.** -/
theorem held_run (hs : ∀ s ∈ steps, s.Keeps) (h : p.afterAll steps = some q)
    (hx : ¬ q.Spent x) : (q.held x).getD [] = (p.held x).getD [] ++ p.gifts steps x := by
  induction steps generalizing p with
  | nil =>
    obtain rfl := Option.some.inj h
    rw [gifts, List.append_nil]
  | cons s rest ih =>
    obtain ⟨mid, hmid, hrest⟩ := exists_of_afterAll_cons h
    obtain ⟨hkeeps, hs⟩ := List.forall_mem_cons.mp hs
    have hlive : ¬ mid.Spent x := fun hspent => hx ((spent_run hs hrest).mpr (.inl hspent))
    rw [ih hs hrest, held_step hkeeps hmid hlive, gifts, hmid, Option.elim_some,
      List.append_assoc]

/-! ## Interleavings -/

/-- The collectors go on with what was found for each of them. -/
def extended (p : Pool ν) (found : Nat → List Diagnostic) : Pool ν :=
  { p with collectors := p.collectors.mapIdx fun c col => col.map (·.extend (found c)) }

theorem collector?_extended {found : Nat → List Diagnostic} :
    (p.extended found).collector? c = (p.collector? c).map (·.extend (found c)) := by
  rw [collector?, extended, Array.getElem?_mapIdx, collector?]
  cases p.collectors[c]? <;> rfl

/-- A pool is known by its collectors, outcomes and lists. -/
theorem ext_collectors (hcols : ∀ c : Nat, p.collectors[c]? = q.collectors[c]?)
    (houts : p.outcomes = q.outcomes) (hlists : p.lists = q.lists) : p = q := by
  obtain ⟨cols, outs, lists⟩ := p
  obtain ⟨cols', outs', lists'⟩ := q
  obtain rfl : cols = cols' := Array.ext_getElem? hcols
  obtain rfl : outs = outs' := houts
  obtain rfl : lists = lists' := hlists
  rfl

theorem extended_nil : p.extended (fun _ => []) = p := by
  refine ext_collectors (fun c => ?_) rfl rfl
  simp [extended, Collector.extend_nil]

theorem extended_extended {found more : Nat → List Diagnostic} :
    (p.extended found).extended more = p.extended fun c => found c ++ more c := by
  refine ext_collectors (fun c => ?_) rfl rfl
  simp [extended, Function.comp_def, Collector.extend_extend]

/-- Giving to one collector extends that one alone. -/
theorem give_collector (p : Pool ν) (c : Nat) (ds : List Diagnostic) :
    p.give (.collector c) ds =
      if (p.collector? c).isSome then some (p.extended fun k => if c = k then ds else [])
      else none := by
  cases hc : p.collector? c with
  | none => simp [give, hc]
  | some col =>
    simp only [give, hc, Option.map_some, Option.isSome_some, if_true]
    refine congrArg some (ext_collectors (fun k => ?_) rfl rfl)
    obtain ⟨hlt, hget⟩ := Array.getElem?_eq_some_iff.mp (Option.join_eq_some_iff.mp hc)
    rcases eq_or_ne c k with rfl | hne
    · simp [setCollector, extended, hget, hlt]
    · simp [setCollector, extended, Array.getElem?_setIfInBounds_ne hne, hne, Collector.extend_nil]

/-- What the steps record on a collector. -/
def recordedOn (steps : List (PoolStep ν)) (c : Nat) : List Diagnostic :=
  (steps.filter fun s => s.recordsOn = some c).flatMap PoolStep.recorded

theorem after_of_recordsOn (h : s.recordsOn = some c) :
    p.after s = p.give (.collector c) s.recorded := by
  cases s with
  | add k d => obtain rfl := Option.some.inj h; rfl
  | report place d =>
    cases place with
    | collector k => obtain rfl := Option.some.inj h; rfl
    | list l => cases h
  | deprecated place notice target =>
    cases place with
    | collector k => obtain rfl := Option.some.inj h; rfl
    | list l => cases h
  | extend k ds => obtain rfl := Option.some.inj h; rfl
  | pipeOutcome k outcome => obtain rfl := Option.some.inj h; rfl
  | _ => cases h

theorem recordedOn_cons (h : s.recordsOn = some c) (steps : List (PoolStep ν)) (k : Nat) :
    recordedOn (s :: steps) k = (if c = k then s.recorded else []) ++ recordedOn steps k := by
  rw [recordedOn, List.filter_cons, h]
  rcases eq_or_ne c k with rfl | hne
  · simp [recordedOn]
  · simp [recordedOn, hne]

/-- **Recording steps add to their collectors, in whichever order they come.** Each collector gets
what is recorded on it. Steps are refused only for want of their collectors. -/
theorem afterAll_recording (hs : ∀ s ∈ steps, s.recordsOn.isSome) :
    p.afterAll steps = some q ↔
      (∀ s ∈ steps, ∀ c, s.recordsOn = some c → (p.collector? c).isSome) ∧
        p.extended (recordedOn steps) = q := by
  induction steps generalizing p with
  | nil =>
    rw [show recordedOn ([] : List (PoolStep ν)) = fun _ => [] from rfl, extended_nil]
    simp [afterAll]
  | cons s rest ih =>
    obtain ⟨hsome, hs⟩ := List.forall_mem_cons.mp hs
    obtain ⟨c, hc⟩ := Option.isSome_iff_exists.mp hsome
    have hrecorded : recordedOn (s :: rest) =
        fun k => (if c = k then s.recorded else []) ++ recordedOn rest k :=
      funext (recordedOn_cons hc rest)
    rw [afterAll_cons, after_of_recordsOn hc, give_collector, hrecorded, ← extended_extended]
    by_cases hlive : (p.collector? c).isSome
    · simp [hlive, ih hs, hc, collector?_extended]
    · simp [hlive, hc]

/-- The steps are an interleaving of passes, each of which records on the collector of its number
alone. -/
structure Interleaves (passes : Nat → List (PoolStep ν)) (steps : List (PoolStep ν)) : Prop where
  recording : ∀ s ∈ steps, s.recordsOn.isSome
  own_steps : ∀ c, (steps.filter fun s => s.recordsOn = some c) = passes c

theorem Interleaves.mem_iff {passes : Nat → List (PoolStep ν)} (h : Interleaves passes steps)
    (hc : s.recordsOn = some c) : s ∈ steps ↔ s ∈ passes c := by
  simp [← h.own_steps c, hc]

/-- **Interleavings of the same passes make the same of a pool.** -/
theorem Interleaves.afterAll_eq {passes : Nat → List (PoolStep ν)} {left right : List (PoolStep ν)}
    (hleft : Interleaves passes left) (hright : Interleaves passes right) :
    p.afterAll left = p.afterAll right := by
  have hfound : recordedOn left = recordedOn right := by
    funext c
    rw [recordedOn, recordedOn, hleft.own_steps, hright.own_steps]
  have hlive : (∀ s ∈ left, ∀ c, s.recordsOn = some c → (p.collector? c).isSome) ↔
      ∀ s ∈ right, ∀ c, s.recordsOn = some c → (p.collector? c).isSome := by
    refine forall_congr' fun s => ?_
    constructor
    · intro h hs c hc
      exact h ((hleft.mem_iff hc).mpr ((hright.mem_iff hc).mp hs)) c hc
    · intro h hs c hc
      exact h ((hright.mem_iff hc).mpr ((hleft.mem_iff hc).mp hs)) c hc
  refine Option.ext fun q => ?_
  rw [afterAll_recording hleft.recording, afterAll_recording hright.recording, hlive, hfound]

/-- **Merging independent passes loses nothing and does not depend on how they were interleaved.**

A proper run without copies is accepted, and so is each part of it from its start. After that part
the holders together hold what they held before it and what its steps recorded, each time that often
and no more, and each of them what it held before and what it was given, in order. Each diagnostic
that was added or reported to a collector has been announced once, when that was done, and nothing
else has been announced.

If the run starts with an interleaving of passes, each on a collector of its own, then after any
other interleaving of them the same further steps end with the same pool, whatever was in the
journal. -/
theorem run_conserves (p : Pool ν) (hkeeps : ∀ s ∈ steps, s.Keeps) (hproper : p.Proper steps)
    (j : Journal) :
    (∀ before rest, steps = before ++ rest → ∃ q,
      (p.run before).run j = (some q, j.announcing (before.flatMap PoolStep.traces)) ∧
      q.contents.Perm (p.contents ++ before.flatMap PoolStep.recorded) ∧
      ∀ x ds, q.held x = some ds → ds = (p.held x).getD [] ++ p.gifts before x) ∧
    ∀ passes left right merges, steps = left ++ merges →
      Interleaves passes left → Interleaves passes right →
      ∀ i, ∃ q, ((p.run (left ++ merges)).run j).1 = some q ∧
        ((p.run (right ++ merges)).run i).1 = some q := by
  constructor
  · rintro before rest rfl
    have hs : ∀ s ∈ before, s.Keeps := fun s hs => hkeeps s (List.mem_append_left rest hs)
    obtain ⟨q, hq⟩ := Option.isSome_iff_exists.mp ((proper_iff hs).mp hproper.of_append)
    refine ⟨q, run_of_afterAll hq j, contents_run hs hq, fun x ds hx => ?_⟩
    have hheld := held_run hs hq (isSome_held_iff.mp (by rw [hx]; rfl)).2
    rwa [hx, Option.getD_some] at hheld
  · rintro passes left right merges rfl hleft hright i
    obtain ⟨q, hq⟩ := Option.isSome_iff_exists.mp ((proper_iff hkeeps).mp hproper)
    refine ⟨q, by rw [fst_run, hq], ?_⟩
    rw [fst_run, afterAll_append, ← hleft.afterAll_eq hright, ← afterAll_append, hq]

end Pool

/-- Two passes merged in two ways into a third collector, whose list is made at the end. -/
theorem run_conserves_samples :
    let a : Diagnostic := .warning ⟨"a"⟩
    let b : Diagnostic := .error ⟨"b"⟩
    let c : Diagnostic := .warning ⟨"c"⟩
    let p : Pool Nat := { collectors := #[some {}, some {}, some {}] }
    let left : List (PoolStep Nat) := [.add 1 a, .extend 2 [b], .report (.collector 1) c]
    let right : List (PoolStep Nat) := [.extend 2 [b], .add 1 a, .report (.collector 1) c]
    let merges : List (PoolStep Nat) := [.absorb 0 2, .wrap 1 7, .pipe 0 0, .unload 0]
    (∃ q, (p.run (left ++ merges)).run {} = (some q, { events := [a.collected, c.collected] }) ∧
      q.held (.list 0) = some [b, a, c] ∧ q.contents.Perm [a, b, c]) ∧
    ∃ q, ((p.run (left ++ merges)).run {}).1 = some q ∧
      ((p.run (right ++ merges)).run {}).1 = some q := by
  intro a b c p left right merges
  have hkeeps : ∀ s ∈ left ++ merges, s.Keeps := by simp [left, merges, PoolStep.Keeps]
  have hfinal : p.afterAll (left ++ merges) = some
      { collectors := #[none, none, none], outcomes := #[none], lists := #[[b, a, c]] } := by
    simp [p, left, merges, Pool.afterAll, Pool.after, Pool.give, Pool.collector?,
      Pool.setCollector, Pool.takeCollector, Pool.takeOutcome, Pool.outcome?, Pool.setOutcome,
      Pool.pushOutcome, Pool.pushList, Collector.extend, Collector.wrap]
  have hproper : p.Proper (left ++ merges) := (Pool.proper_iff hkeeps).mpr (by rw [hfinal]; rfl)
  have hinterleaved : ∀ k, (right.filter fun s => s.recordsOn = some k) =
      left.filter fun s => s.recordsOn = some k := by
    intro k
    by_cases hk : k = 2
    · subst hk
      rfl
    · have hb : (PoolStep.extend 2 [b] : PoolStep Nat).recordsOn ≠ some k :=
        fun h => hk (Option.some.inj h).symm
      simp only [left, right, List.filter_cons, decide_eq_false hb, Bool.false_eq_true, if_false]
  obtain ⟨hparts, hsame⟩ := p.run_conserves hkeeps hproper {}
  obtain ⟨q, hrun, hcontents, _⟩ := hparts (left ++ merges) [] (List.append_nil _).symm
  refine ⟨⟨q, hrun, ?_, hcontents⟩, ?_⟩
  · have hq := p.fst_run (left ++ merges) {}
    rw [hrun, hfinal] at hq
    rw [Option.some.inj hq]
    rfl
  · exact hsame (fun k => left.filter fun s => s.recordsOn = some k) left right merges rfl
      ⟨by simp [left, PoolStep.recordsOn], fun _ => rfl⟩
      ⟨by simp [right, PoolStep.recordsOn], hinterleaved⟩ {}

end SourceDiagnostics
