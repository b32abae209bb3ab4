import SourceDiagnostics.Journal

/-!
Running computations with faults step by step: from how the first part of a computation ends follows
how the whole of it goes on (`run_bind_of_ok`) or that it stops there (`run_bind_of_error`), whatever
the state is that it works on. Parts of a checked computation that cannot fault, and parts that leave
the journal alone, are run on their own.
-/

namespace SourceDiagnostics

variable {σ α β : Type} {s t : σ} {j i : Journal}

/-- A computation goes on from where its first part ended. -/
theorem run_bind_of_ok {x : ExceptT Fault (StateM σ) α} {f : α → ExceptT Fault (StateM σ) β} {a : α}
    (h : x.run.run s = (.ok a, t)) : (x >>= f).run.run s = (f a).run.run t := by
  rw [ExceptT.run_bind, StateT.run_bind, h]
  rfl

/-- A fault is the end, and what was done by then stays. -/
theorem run_bind_of_error {x : ExceptT Fault (StateM σ) α} {f : α → ExceptT Fault (StateM σ) β}
    {fault : Fault} (h : x.run.run s = (.error fault, t)) :
    (x >>= f).run.run s = (.error fault, t) := by
  rw [ExceptT.run_bind, StateT.run_bind, h]
  rfl

theorem run_journaled {x : Journaled α} {a : α} (h : x.run j = (a, i)) :
    (liftM x : Checked α).run.run j = (.ok a, i) := by
  change (x >>= fun a => pure (Except.ok a) : Journaled _).run j = _
  rw [StateT.run_bind, h]
  rfl

theorem run_except (r : Except Fault α) (j : Journal) :
    (liftM r : Checked α).run.run j = (r, j) := rfl

end SourceDiagnostics
