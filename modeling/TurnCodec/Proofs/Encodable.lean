import TurnCodec.Proofs.Reports
/-! Which responses have a wire form: those whose values all have one. What is said of any other is said
of the first value without one in document order, by its key and by the cause. -/

namespace TurnCodec

open Bearing

namespace Unwritable

/-- The key of the value that has no wire form. -/
def key : Unwritable → String
  | discarded key | unregistered key _ | refused key _ _ => key

theorem named (u : Unwritable) : ∃ rest, u.report.message = "Extension '" ++ u.key ++ "'" ++ rest := by
  cases u with
  | discarded key =>
    refine ⟨" holds a discarded JSON value.", ?_⟩
    rw [report, show "' holds a discarded JSON value." = "'" ++ " holds a discarded JSON value." from rfl,
      ← String.append_assoc]
    rfl
  | unregistered key name =>
    refine ⟨": " ++ (Registry.unregisteredType name).message, ?_⟩
    rw [report, Report.under, show "': " = "'" ++ ": " from rfl, ← String.append_assoc, ← String.append_assoc]
    rfl
  | refused key id why =>
    cases why with
    | because reason =>
      refine ⟨" of type '" ++ id ++ "' failed to encode: " ++ reason, ?_⟩
      rw [report, show "' of type '" = "'" ++ " of type '" from rfl]
      simp only [← String.append_assoc]
      rfl
    | silent =>
      refine ⟨" of type '" ++ id ++ "' failed to encode with a non-standard exception.", ?_⟩
      rw [report, show "' of type '" = "'" ++ " of type '" from rfl]
      simp only [← String.append_assoc]
      rfl

end Unwritable

variable {F : TypeFamily} {R : Registry F}

namespace Extension

/-- A plain value that is there, or a value of a bound type that its encoder does not give up on. -/
def Encodable (R : Registry F) : Extension F → Prop
  | plain t => t ≠ .discarded
  | typed k v => ∃ b p, ⟨k, b⟩ ∈ R.bindings ∧ b.encode v = .ok p

/-- Why a value has no wire form, with the code that is reported. -/
inductive Lacks (R : Registry F) : Extension F → String → Prop
  | discarded : Lacks R (plain .discarded) "unrepresentable_extension_value"
  | unregistered {k : F.Key} {v : F.Value k} (h : ∀ b, ⟨k, b⟩ ∉ R.bindings) :
      Lacks R (typed k v) "unregistered_extension_value"
  | thrown {k : F.Key} {v : F.Value k} {b : Binding F k} {why : Refusal} (hb : ⟨k, b⟩ ∈ R.bindings)
      (h : b.encode v = .error why) : Lacks R (typed k v) "extension_encode_failed"

/-- What is said of a value without a wire form: its key is named, and the code goes by the cause. -/
structure Blamed (R : Registry F) (key : String) (x : Extension F) (u : Unwritable) : Prop where
  fault : toWire R key x = .error u
  cause : x.Lacks R u.report.code
  named : ∃ rest, u.report.message = "Extension '" ++ key ++ "'" ++ rest

variable {key : String} {x : Extension F}

theorem toWire_ok_iff (hR : R.Reachable) : (∃ w, toWire R key x = .ok w) ↔ x.Encodable R := by
  cases x with
  | plain t => simp [toWire_plain, Encodable]
  | typed k v =>
    simp only [toWire_typed, hR.sound.byType?_eq_some, Encodable]
    exact ⟨fun ⟨_, b, p, hb, hp, _⟩ => ⟨b, p, hb, hp⟩, fun ⟨b, p, hb, hp⟩ => ⟨_, b, p, hb, hp, rfl⟩⟩

theorem blamed_of_error {u : Unwritable} (h : toWire R key x = .error u) : x.Blamed R key u := by
  cases x with
  | plain t =>
    cases t with
    | discarded =>
      obtain rfl := Except.error.inj h
      exact ⟨h, .discarded, Unwritable.named _⟩
    | _ => cases h
  | typed k v =>
    cases hb : R.byType? k with
    | none =>
      simp only [toWire, hb] at h
      obtain rfl := Except.error.inj h
      have unbound : ∀ b, ⟨k, b⟩ ∉ R.bindings := fun b hmem => Registry.byType?_eq_none.1 hb (List.mem_map_of_mem hmem)
      exact ⟨by rw [toWire, hb], .unregistered unbound, Unwritable.named _⟩
    | some b =>
      have hmem := Registry.mem_of_byType? hb
      cases hp : b.encode v with
      | ok p =>
        simp only [toWire, hb, hp] at h
        cases h
      | error why =>
        have hfault : toWire R key (typed k v) = .error (.refused key b.id why) := by simp only [toWire, hb, hp]
        obtain rfl := Except.error.inj (hfault.symm.trans h)
        refine ⟨hfault, ?_, Unwritable.named _⟩
        cases why <;> exact .thrown hmem hp

end Extension

/-- A response has a wire form exactly if each of its values has one. Otherwise the error is what
is said of the first value that has none, in document order. -/
theorem Response.toWire_first (hR : R.Reachable) (r : Response (Extension F)) :
    ((∃ w, r.toWire R = .ok w) ↔ ∀ e ∈ extras r, e.2.Encodable R) ∧
    ∀ u, r.toWire R = .error u ↔ ∃ before e after, extras r = before ++ e :: after ∧
      (∀ d ∈ before, d.2.Encodable R) ∧ ¬ e.2.Encodable R ∧ e.2.Blamed R e.1 u := by
  constructor
  · constructor
    · rintro ⟨w, hw⟩ e he
      obtain ⟨s, hs, -⟩ := map_eq_ok.1 hw
      exact (Extension.toWire_ok_iff hR).1 (((visit_eq_ok (X := Response)).1 hs).1 e he)
    · intro h
      have hvisit : r.traverse (Extension.toWire R) = .ok (map (valueOf (Extension.toWire R)) r) :=
        (visit_eq_ok (X := Response)).2 ⟨fun e he => (Extension.toWire_ok_iff hR).2 (h e he), rfl⟩
      exact ⟨_, map_eq_ok.2 ⟨_, hvisit, rfl⟩⟩
  · intro u
    rw [toWire_eq_error]
    constructor
    · rintro ⟨before, e, after, hes, hbefore, he⟩
      have hlacks : ¬ e.2.Encodable R := fun h => by
        obtain ⟨w, hw⟩ := (Extension.toWire_ok_iff hR).2 h
        rw [he] at hw
        cases hw
      exact ⟨before, e, after, hes, fun d hd => (Extension.toWire_ok_iff hR).1 (hbefore d hd), hlacks,
        Extension.blamed_of_error he⟩
    · rintro ⟨before, e, after, hes, hbefore, -, hblamed⟩
      exact ⟨before, e, after, hes, fun d hd => (Extension.toWire_ok_iff hR).2 (hbefore d hd), hblamed.fault⟩

/-- Two values without a wire form, the first of them in a part of the message. -/
def Response.lost : Response (Extension .truth) where
  id := "turn"
  blocks := [
    { type := .message
      payload := some (.message {
        content := .output [.text "hi" (Dict.empty.put "seen" (.typed () true)),
          .text "ho" (Dict.empty.put "gone" (.plain .discarded))]
        extra := Dict.empty.put "also" (.plain .discarded) }) }]

theorem Response.toWire_first_lost : ∃ u, lost.toWire .truth = .error u ∧
    u.report.message = "Extension 'gone' holds a discarded JSON value." := by
  have hextras : extras lost =
      [("seen", .typed () true)] ++ ("gone", .plain .discarded) :: [("also", .plain .discarded)] := rfl
  have hseen : ∀ d ∈ [("seen", Extension.typed (F := .truth) () true)], d.2.Encodable .truth := by
    simp only [List.forall_mem_singleton]
    exact ⟨.truth, .bool true, List.mem_singleton_self _, rfl⟩
  have hgone : ¬ (Extension.plain (F := .truth) .discarded).Encodable .truth := fun h => h rfl
  refine ⟨.discarded "gone", ((toWire_first Registry.truth_reachable lost).2 _).2 ?_, rfl⟩
  exact ⟨_, _, _, hextras, hseen, hgone, Extension.blamed_of_error rfl⟩

end TurnCodec
