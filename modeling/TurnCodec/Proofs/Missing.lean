import TurnCodec.Proofs.Metadata
import TurnCodec.Proofs.Wire.Extension
import TurnCodec.Proofs.Wire.Layout
/-! Two programs with different registries. A reader that has no binding for an id among those of
the writer fails, and its report is about the first value in document order that has such an id. -/

namespace TurnCodec

open Bearing

/-- Under an id that both bind, `C` decodes whatever `P` encodes. It does if its decoder undoes the
encoder; it need not even be of the same type. -/
def Registry.Receives {F G : TypeFamily} (C : Registry G) (P : Registry F) : Prop :=
  ∀ id b c, P.byId? id = some b → C.byId? id = some c → ∀ v p, b.2.encode v = .ok p → ∃ u, c.2.decode p = .ok u

namespace Extension

variable {F G : TypeFamily} {P : Registry F} {C : Registry G} {x : Extension F} {key id : String} {w : Tree}

/-- The id of the type of a value. Plain values have none. -/
def id? (P : Registry F) : Extension F → Option String
  | plain _ => none
  | typed k _ => (P.byType? k).map (·.id)

/-- A value whose id for the writer `P` is not bound for the reader `C`. -/
def Missing (P : Registry F) (C : Registry G) (x : Extension F) : Prop := ∃ id, x.id? P = some id ∧ C.byId? id = none

theorem id?_eq_some : x.id? P = some id ↔ ∃ k v b, x = typed k v ∧ P.byType? k = some b ∧ b.id = id := by
  rcases x with t | ⟨k, v⟩
  · simp [id?]
  · simp [id?, Option.map_eq_some_iff]

theorem ofWire_unbound (hP : P.Sound) (hid : x.id? P = some id) (hC : C.byId? id = none) (hw : x.toWire P key = .ok w) :
    ofWire C key w = .error (.unknownType key id) := by
  obtain ⟨k, v, b, rfl, hb, rfl⟩ := id?_eq_some.1 hid
  obtain ⟨a, p, ha, -, rfl⟩ := toWire_typed.1 hw
  obtain rfl : b = a := Option.some.inj (hb.symm.trans ha)
  rw [ofWire_record, resolve, if_neg (hP.unreserved _ (Registry.mem_of_byType? hb)), hC]

theorem ofWire_received (hP : P.Sound) (hC : C.Receives P) (hx : ¬ x.Missing P C) (hw : x.toWire P key = .ok w) :
    ∃ y, ofWire C key w = .ok y := by
  rcases x with t | ⟨k, v⟩
  · obtain ⟨-, rfl⟩ := toWire_plain.1 hw
    exact ⟨plain t, rfl⟩
  · obtain ⟨b, p, hb, hp, rfl⟩ := toWire_typed.1 hw
    have bound : C.byId? b.id ≠ none := fun hnone => hx ⟨b.id, id?_eq_some.2 ⟨k, v, b, rfl, hb, rfl⟩, hnone⟩
    obtain ⟨⟨j, c⟩, hc⟩ := Option.ne_none_iff_exists'.1 bound
    obtain ⟨u, hu⟩ := hC b.id _ _ (hP.byId?_of_byType? hb) hc v p hp
    exact ⟨typed j u, resolve_typed (hP.unreserved _ (Registry.mem_of_byType? hb)) hc hu⟩

end Extension

/-- The first element with a property. -/
theorem exists_first {α : Type} {p : α → Prop} {l : List α} (h : ∃ a ∈ l, p a) :
    ∃ before a after, l = before ++ a :: after ∧ (∀ b ∈ before, ¬ p b) ∧ p a := by
  classical
  have found : (l.find? (p ·)).isSome = true := by simpa using h
  obtain ⟨a, ha⟩ := Option.isSome_iff_exists.1 found
  obtain ⟨hp, before, after, hl, hbefore⟩ := List.find?_eq_some_iff_append.1 ha
  exact ⟨before, a, after, hl, by simpa using hbefore, by simpa using hp⟩

/-- A reader refuses a response for the first of its values that the reader cannot know, by the key
and the id of that value. -/
theorem Response.ofWire_missing {F G : TypeFamily} {P : Registry F} {C : Registry G} {r : Response (Extension F)}
    {w : Tree} (hP : P.Reachable) (hC : C.Receives P) (hw : r.toWire P = .ok w)
    (hmissing : ∃ e ∈ extras r, e.2.Missing P C) :
    ∃ before key x after id, extras r = before ++ (key, x) :: after ∧ (∀ e ∈ before, ¬ e.2.Missing P C) ∧
      x.id? P = some id ∧ C.byId? id = none ∧ ofWire C w = .error (.unknownType key id) ∧
      (Malformed.unknownType key id).report =
        ⟨.unknownExtensionType, "Extension '" ++ key ++ "': " ++ ("Extension type '" ++ id ++ "' is not registered."),
          "unknown_extension_type", "Register the type before decoding payloads that carry it."⟩ := by
  obtain ⟨before, ⟨key, x⟩, after, hes, hbefore, id, hid, hnone⟩ := exists_first hmissing
  obtain ⟨s, hs, rfl⟩ := map_eq_ok.1 hw
  refine ⟨before, key, x, after, id, hes, hbefore, hid, hnone, ?_, rfl⟩
  rw [ofWire, readWire_layout]
  refine visit_first (X := Response) hs hes (fun d hd u hu => ?_) fun u hu => ?_
  · exact Extension.ofWire_received hP.sound hC (hbefore d hd) hu
  · exact Extension.ofWire_unbound hP.sound hid hnone hu

/-- The family of a caller with two types, marks that a turn was sent or seen. -/
def TypeFamily.marks : TypeFamily where
  Key := Bool
  Value _ := Bool
  same _ a b := a == b
  name sent := if sent then "Sent" else "Seen"

def Binding.mark (sent : Bool) : Binding .marks sent where
  id := if sent then "vendor.Sent" else "vendor.Seen"
  encode b := .ok (.bool b)
  decode
    | .bool b => .ok b
    | _ => .error (.because "not a truth value")

/-- A program that knows some of the marks. -/
def Registry.marks (known : List Bool) : Registry .marks := run ∅ (known.map fun sent => ⟨sent, .mark sent⟩)

/-- A message with a mark of each type, the one on its part before the one on the whole. -/
def Response.marked : Response (Extension .marks) where
  id := "turn"
  blocks := [
    { type := .message
      payload := some (.message {
        content := .output [.text "hi" (Dict.empty.put "seen" (.typed false true))]
        extra := (Dict.empty.put "sent" (.typed true true)).put "flag" (.plain (.bool true)) }) }]

theorem Response.ofWire_missing_marked : ∃ w before x after, marked.toWire (.marks [false, true]) = .ok w ∧
    extras marked = before ++ ("sent", x) :: after ∧
    ofWire (.marks [false]) w = .error (.unknownType "sent" "vendor.Sent") := by
  have received : (Registry.marks [false]).Receives (.marks [false, true]) := by
    intro id b c hb hc v p hp
    have hb : b ∈ [⟨false, .mark false⟩, ⟨true, .mark true⟩] := List.mem_of_find?_eq_some hb
    obtain rfl : c = ⟨false, .mark false⟩ := List.mem_singleton.1 (List.mem_of_find?_eq_some hc)
    obtain rfl | rfl : b = ⟨false, .mark false⟩ ∨ b = ⟨true, .mark true⟩ := by simpa using hb
    · cases hp
      exact ⟨v, rfl⟩
    · cases hp
      exact ⟨v, rfl⟩
  have missing : ∃ e ∈ extras marked, e.2.Missing (.marks [false, true]) (.marks [false]) := by
    refine ⟨("sent", .typed true true), ?_, "vendor.Sent", rfl, rfl⟩
    exact List.mem_of_getElem? (i := 2) rfl
  obtain ⟨before, key, x, after, id, hes, -, -, -, hread, -⟩ := ofWire_missing ⟨_, rfl⟩ received rfl missing
  have named : Except.error (.unknownType key id) = .error (Malformed.unknownType "sent" "vendor.Sent") :=
    hread.symm.trans rfl
  cases named
  exact ⟨_, before, x, after, rfl, hes, hread⟩

end TurnCodec
