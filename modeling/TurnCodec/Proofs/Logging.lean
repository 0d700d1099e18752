import Mathlib.Data.List.Induction
import TurnCodec.Proofs.Codec
/-! What is logged. A call says once what it came to, and says what it answers; what it passes over
in a payload it says before that, whether or not the payload can be read. Of what is said the logger
drops the entries below its level, and keeps the others in order on the stream of their level. -/

namespace TurnCodec

namespace Logger

variable (l : Logger)

/-- Entries as lines, warnings and errors on standard error and the others on standard output. -/
def shown (es : List Entry) : Console where
  out := String.join ((es.filter (·.level ∈ [.debug, .info])).map l.line)
  err := String.join ((es.filter (·.level ∈ [.warn, .error])).map l.line)

theorem shown_append (es ds : List Entry) : l.shown (es ++ ds) = l.shown es ++ l.shown ds := by
  simp only [shown, List.filter_append, List.map_append, String.join_append]
  rfl

theorem shown_singleton (e : Entry) :
    l.shown [e] = if e.level.isUrgent then { err := l.line e } else { out := l.line e } := by
  obtain ⟨level, text⟩ := e
  cases level <;> simp [shown, Level.isUrgent, Level.rank]

theorem writeEntry_eq (e : Entry) :
    l.writeEntry e = l.shown ([e].filter fun e => l.minLevel.rank ≤ e.level.rank) := by
  rw [List.filter_singleton]
  by_cases h : l.minLevel.rank ≤ e.level.rank
  · simp [writeEntry, enabled, shown_singleton, h]
  · simp [writeEntry, enabled, shown, h]

/-- What is written are the entries of the level or above. -/
theorem write_eq (es : List Entry) : l.write es = l.shown (es.filter fun e => l.minLevel.rank ≤ e.level.rank) := by
  induction es using List.reverseRecOn with
  | nil => rfl
  | append_singleton es e ih =>
    rw [List.filter_append, shown_append, ← ih, ← writeEntry_eq, write, List.foldl_append]
    rfl

end Logger

/-- What a call says of its answer: what it did, or the error. -/
def outcomeEntry {ε α : Type} (action : String) (report : ε → Report) (done : α → String) : Except ε α → Entry
  | .ok a => ⟨.debug, done a⟩
  | .error e => ⟨.warn, action ++ " failed [" ++ (report e).code ++ "]: " ++ (report e).message⟩

theorem entries_refused {ε α : Type} (action : String) (report : ε → Report) (done : α → String) (fault : ε) :
    (refused action report fault : Logged (Except ε α)).entries =
      [outcomeEntry action report done (refused action report fault : Logged (Except ε α)).value] := rfl

def ignoredEntry (key : String) : Entry := ⟨.debug, "Ignoring unknown response field: " ++ key⟩

theorem Response.entries_receive {F : TypeFamily} (R : Registry F) (w : Tree) :
    (receive R w).entries = (unknownKeys w).map ignoredEntry := by
  have hkeys (keys : List String) :
      (keys.forM fun key => Logged.tell .debug ("Ignoring unknown response field: " ++ key)).entries =
        keys.map ignoredEntry := by
    induction keys with
    | nil => rfl
    | cons key keys ih => exact congrArg (ignoredEntry key :: ·) ih
  rw [receive, Logged.entries_bind, hkeys, Logged.entries_pure, List.append_nil]

theorem Response.mem_unknownKeys {w : Tree} {key : String} : key ∈ unknownKeys w ↔
    ∃ fields, w = .object fields ∧ key ∈ fields.map (·.1) ∧ key ∉ ["id", "finish_reason", "usage", "blocks"] := by
  cases w with
  | object fields => simp [unknownKeys, knownKeys]
  | _ => simp [unknownKeys]

theorem Tree.Kept.unknownKeys_ascending {w : Tree} (h : w.Kept) : (Response.unknownKeys w).Pairwise (· < ·) := by
  cases w with
  | object fields => exact (List.pairwise_map.2 (kept_object.1 h).1).filter _
  | _ => exact List.Pairwise.nil

namespace Codec

variable {F : TypeFamily}

/-- The keys at the top of the tree in a payload that no response has, in their order. -/
structure Ignores (c : Codec F) (payload : List UInt8) (keys : List String) : Prop where
  ascending : keys.Pairwise (· < ·)
  mem_iff : ∀ key, key ∈ keys ↔ ∃ fields, c.inspect payload = .ok (.object fields) ∧ key ∈ fields.map (·.1) ∧
    key ∉ ["id", "finish_reason", "usage", "blocks"]

def decoded (payload : List UInt8) (r : Response (Extension F)) : String :=
  "Decoded response " ++ r.id ++ " (" ++ toString payload.length ++ " bytes)"

def encoded (r : Response (Extension F)) (payload : List UInt8) : String :=
  "Encoded response " ++ r.id ++ " (" ++ toString r.blocks.length ++ " blocks, " ++ toString payload.length ++ " bytes)"

theorem entries_encodeWith (write : Tree → List UInt8) (c : Codec F) (r : Response (Extension F)) :
    (c.encodeWith write r).entries =
      [outcomeEntry "Encode" EncodeFault.report (encoded r) (c.encodeWith write r).value] := by
  unfold encodeWith
  rcases c.wireOf r with fault | w
  · exact entries_refused _ _ _ _
  · rfl

theorem entries_decode_error {c : Codec F} {payload : List UInt8} {e : Envelope.Fault}
    (h : c.inspect payload = .error e) : (c.decode payload).entries =
      [outcomeEntry "Decode" DecodeFault.report (decoded payload) (c.decode payload).value] := by
  unfold decode
  rw [h]
  exact entries_refused _ _ _ _

theorem entries_decode_ok {c : Codec F} {payload : List UInt8} {w : Tree} (h : c.inspect payload = .ok w) :
    (c.decode payload).entries = (Response.unknownKeys w).map ignoredEntry ++
      [outcomeEntry "Decode" DecodeFault.report (decoded payload) (c.decode payload).value] := by
  unfold decode
  rw [h]
  simp only [Logged.entries_bind, Logged.value_bind, Response.entries_receive]
  congr 1
  rcases (Response.receive c.registry w).value with m | r
  · exact entries_refused _ _ _ _
  rcases hv : r.validate with v | _
  · simp only [hv]
    exact entries_refused _ _ _ _
  · simp only [hv]
    rfl

/-- What is ignored is told before the outcome, though the reading may fail. -/
theorem entries_decode (c : Codec F) (payload : List UInt8) : ∃ keys, c.Ignores payload keys ∧
    (c.decode payload).entries = keys.map ignoredEntry ++
      [outcomeEntry "Decode" DecodeFault.report (decoded payload) (c.decode payload).value] := by
  rcases h : c.inspect payload with e | w
  · refine ⟨[], ⟨List.Pairwise.nil, fun key => ?_⟩, entries_decode_error h⟩
    simp [h]
  · refine ⟨_, ⟨(kept_inspect h).unknownKeys_ascending, fun key => ?_⟩, entries_decode_ok h⟩
    simp only [h, Except.ok.injEq, Response.mem_unknownKeys]

end Codec

theorem Registry.entries_register {F : TypeFamily} (R : Registry F) {k : F.Key} (b : Binding F k) :
    ((R.register b).entries = [⟨.info, "Registered extension type: " ++ b.id⟩] ∧
      R.after b = ⟨R.bindings ++ [⟨k, b⟩]⟩) ∨
    ((R.register b).entries = [] ∧ R.after b = R) := by
  have h := R.register_outcome b
  unfold after
  generalize R.register b = m at h ⊢
  cases h with
  | added => exact .inl ⟨rfl, rfl⟩
  | _ => exact .inr ⟨rfl, rfl⟩

/-- The field of a payload that is no response is told of all the same. -/
example : (Codec.narrow.decode [0x41, 0x47, 0x52, 1, 0xa1, 0x61, 0x78, 0]).entries = [
    ⟨.debug, "Ignoring unknown response field: x"⟩,
    ⟨.warn, "Decode failed [corrupt_payload]: Missing field 'id'."⟩] := by
  decide +kernel

end TurnCodec
