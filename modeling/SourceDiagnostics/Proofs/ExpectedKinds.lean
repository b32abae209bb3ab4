import SourceDiagnostics.Program.SemanticType
import SourceDiagnostics.Proofs.Separators

/-!
What the message of a kind mismatch tells.

The names of the expected kinds stand at the end of the message, with a comma and a blank between
them. Some names begin with another name, but none holds a comma, so a name ends at the first comma
or at the end of the message.

* `TypeKind.name_inj`: a name belongs to one kind only;
* `TypeKind.names_inj`: names in a row belong to one list of kinds only;
* `KindMismatch.message_inj`: with one description, equal messages mean equal lists;
* `SemanticType.mismatch_readable`: when kinds are refused, and what is said of it.
-/

namespace SourceDiagnostics

/-! ## Names of kinds -/

namespace TypeKind

theorem ofName?_name (k : TypeKind) : ofName? k.name = some k := by
  cases k <;> decide +kernel

theorem name_inj {k l : TypeKind} : k.name = l.name ↔ k = l := by
  constructor
  · intro h
    have hread := congrArg ofName? h
    rw [ofName?_name, ofName?_name] at hread
    exact Option.some.inj hread
  · exact congrArg name

theorem comma_not_mem_name (k : TypeKind) : ',' ∉ k.name.toList := by
  cases k <;> decide +kernel

theorem name_ne_nil (k : TypeKind) : k.name.toList ≠ [] := by
  cases k <;> decide +kernel

end TypeKind

/-! ## Mismatches -/

/-- The names of kinds, in order, tell which kinds they are. -/
theorem TypeKind.names_inj {kinds kinds' : List TypeKind}
    (h : ", ".intercalate (kinds.map name) = ", ".intercalate (kinds'.map name)) :
    kinds = kinds' := by
  have hword : ∀ (kinds : List TypeKind), ∀ w ∈ (kinds.map name).map String.toList,
      w ≠ [] ∧ ',' ∉ w := by
    intro kinds w hw
    simp only [List.map_map, List.mem_map] at hw
    obtain ⟨k, _, rfl⟩ := hw
    exact ⟨name_ne_nil k, comma_not_mem_name k⟩
  have hchars := congrArg String.toList h
  rw [String.toList_intercalate, String.toList_intercalate] at hchars
  have hwords := intercalate_inj (hword kinds) (hword kinds') hchars
  have hnames := List.map_injective_iff.mpr (fun _ _ => String.toList_inj.mp) hwords
  exact List.map_injective_iff.mpr (fun _ _ => name_inj.mp) hnames

theorem KindMismatch.message_inj {description : String} {kinds kinds' : List TypeKind}
    (h : (mk description kinds).message = (mk description kinds').message) : kinds = kinds' :=
  TypeKind.names_inj ((String.append_right_inj _).mp h)

namespace SemanticType

variable {description : String} {t : SemanticType} {kinds : List TypeKind}

theorem expectKind_eq_ok_iff : t.expectKind description kinds = .ok () ↔ t.kind ∈ kinds := by
  by_cases h : t.kind ∈ kinds <;> simp [expectKind, h]

theorem expectKind_eq_error_iff {e : KindMismatch} :
    t.expectKind description kinds = .error e ↔ t.kind ∉ kinds ∧ e = ⟨description, kinds⟩ := by
  by_cases h : t.kind ∈ kinds <;> simp [expectKind, h, eq_comm]

/-- **The message of a mismatch names every kind that was expected, in order.** A type is accepted
exactly if its kind is in the list. Otherwise the message is made of the description and the names,
and two lists with one description and one message are the same list, with the same kinds in the same
places, whatever types they refuse. -/
theorem mismatch_readable (description : String) (t : SemanticType) (kinds : List TypeKind) :
    (t.expectKind description kinds = .ok () ↔ t.kind ∈ kinds) ∧
    (t.kind ∉ kinds → ∃ e, t.expectKind description kinds = .error e ∧
      e.message = "Expected " ++ description ++ " to be type " ++
        ", ".intercalate (kinds.map TypeKind.name)) ∧
    ∀ (t' : SemanticType) (kinds' : List TypeKind) (e e' : KindMismatch),
      t.expectKind description kinds = .error e → t'.expectKind description kinds' = .error e' →
      e.message = e'.message → kinds = kinds' := by
  refine ⟨expectKind_eq_ok_iff, fun hkind => ?_, fun t' kinds' e e' he he' hmessage => ?_⟩
  · exact ⟨_, expectKind_eq_error_iff.mpr ⟨hkind, rfl⟩, rfl⟩
  · obtain ⟨_, rfl⟩ := expectKind_eq_error_iff.mp he
    obtain ⟨_, rfl⟩ := expectKind_eq_error_iff.mp he'
    exact KindMismatch.message_inj hmessage

/-- A name that begins with another one, a kind that is named twice, and a list without kinds. -/
theorem mismatch_readable_samples :
    let t : SemanticType := ⟨.scalar, none⟩
    let kinds : List TypeKind := [.model, .modelProperty, .model]
    (t.kind ∉ kinds ∧ ∃ e, t.expectKind "self" kinds = .error e ∧
      e.message = "Expected self to be type Model, ModelProperty, Model") ∧
    ∀ kinds' ∈ [[], [.model], [.modelProperty, .model, .model]], ∀ e e' : KindMismatch,
      t.expectKind "self" kinds = .error e → t.expectKind "self" kinds' = .error e' →
      e.message ≠ e'.message := by
  intro t kinds
  obtain ⟨_, hmessage, hread⟩ := mismatch_readable "self" t kinds
  have hkind : t.kind ∉ kinds := by decide
  refine ⟨⟨hkind, hmessage hkind⟩, fun kinds' hkinds' e e' he he' h => ?_⟩
  obtain rfl := hread t kinds' e e' he he' h
  exact absurd hkinds' (by decide)

end SemanticType

end SourceDiagnostics
