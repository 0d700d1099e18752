import TurnCodec.Proofs.Cbor.Reached
import TurnCodec.Proofs.Limits
/-! The guards on nesting and on announced entries, on bodies of any kind, complete or not. A body
is refused for the first head that exceeds the limits, before any entry of its container is read;
but the greatest count that a head can hold passes for an unknown one. -/

namespace TurnCodec

open Cbor (Met MeetsFirst)

namespace Codec

variable {F : TypeFamily} (c : Codec F)

/-- The limits of a codec on a body. -/
def limitsOn (body : List UInt8) : Cbor.Limits := ⟨c.options.maxNestingDepth.toNat, body.length⟩

/-- Both calls refuse a body as corrupt at a head: for its depth, or else for its entries. -/
structure RefusesAt (body : List UInt8) (m : Met) : Prop where
  seen : c.inspect (Envelope.pack body) = .error (.body (m.rejection (c.limitsOn body)))
  decoded : (c.decode (Envelope.pack body)).value = .error (.envelope (.body (m.rejection (c.limitsOn body))))
  kind : (Envelope.Fault.body (m.rejection (c.limitsOn body))).report.kind = .corruptPayload
  deep : m.TooDeep (c.limitsOn body) →
    (Envelope.Fault.body (m.rejection (c.limitsOn body))).report.code = "nesting_too_deep"
  many : ¬ m.TooDeep (c.limitsOn body) →
    (Envelope.Fault.body (m.rejection (c.limitsOn body))).report.code = "declared_length_exceeds_payload"

/-- The codes of the guards on heads. -/
def headCodes : List String := ["nesting_too_deep", "declared_length_exceeds_payload"]

variable {c} {body : List UInt8}

theorem inspect_body (hsize : (Envelope.pack body).length ≤ c.options.maxPayloadBytes.toNat) {why : Cbor.Rejection} :
    c.inspect (Envelope.pack body) = .error (.body why) ↔
      Cbor.read c.options.maxNestingDepth.toNat body = .error why := by
  rw [inspect, Envelope.unpack_pack, if_neg (by omega)]
  cases hread : Cbor.read c.options.maxNestingDepth.toNat body with
  | error why' => simp
  | ok t => cases t <;> simp

theorem RefusesAt.of_seen {m : Met} (h : c.inspect (Envelope.pack body) = .error (.body (m.rejection (c.limitsOn body)))) :
    c.RefusesAt body m where
  seen := h
  decoded := decode_eq_envelope.2 h
  kind := by
    unfold Met.rejection
    split <;> rfl
  deep hdeep := by
    rw [Met.rejection_deep hdeep]
    rfl
  many hdeep := by
    rw [Met.rejection_many hdeep]
    rfl

/-- A code of the guards on heads is that of a body which is read and refused, but not as malformed. -/
theorem read_of_headCode (hsize : (Envelope.pack body).length ≤ c.options.maxPayloadBytes.toNat) {e : Envelope.Fault}
    (h : c.inspect (Envelope.pack body) = .error e) (hcode : e.report.code ∈ headCodes) :
    ∃ why, why ≠ .malformed ∧ Cbor.read c.options.maxNestingDepth.toNat body = .error why := by
  cases e with
  | body why =>
    refine ⟨why, ?_, (inspect_body hsize).1 h⟩
    rintro rfl
    simp [Envelope.Fault.report, headCodes] at hcode
  | _ => simp [Envelope.Fault.report, headCodes] at hcode

/-- The first head that exceeds the limits is what a body is refused for, whatever comes after
it, exactly if it is too deep or does not announce the greatest count. Without such a head
neither code of the guards is reported. -/
theorem refusesAt_first (c : Codec F) {body : List UInt8}
    (hsize : (Envelope.pack body).length ≤ c.options.maxPayloadBytes.toNat) :
    (∀ m, MeetsFirst (Met.Exceeds (c.limitsOn body)) body m →
      (c.RefusesAt body m ↔ (m.count = some 0xffffffffffffffff → m.TooDeep (c.limitsOn body)))) ∧
    ((∀ m, ¬ MeetsFirst (Met.Exceeds (c.limitsOn body)) body m) →
      (∀ e, c.inspect (Envelope.pack body) = .error e → e.report.code ∉ headCodes) ∧
      ∀ f, (c.decode (Envelope.pack body)).value = .error f → f.report.code ∉ headCodes) := by
  have hlength := Envelope.length_lt hsize
  constructor
  · intro m hmeets
    constructor
    · intro hrefuses hgreatest
      by_contra hdeep
      have hread := (inspect_body hsize).1 hrefuses.seen
      rw [Met.rejection_many hdeep, hgreatest] at hread
      exact Cbor.resume_ne_tooMany _ _ _ _ _ hread
    · intro hcount
      exact .of_seen ((inspect_body hsize).2 (Cbor.read_of_meets hlength hmeets hcount))
  · intro hnone
    have hseen : ∀ e, c.inspect (Envelope.pack body) = .error e → e.report.code ∉ headCodes := by
      intro e he hcode
      obtain ⟨why, hwhy, hread⟩ := read_of_headCode hsize he hcode
      obtain ⟨m, hmeets⟩ := Cbor.read_eq_error hlength hread hwhy
      exact hnone m hmeets
    refine ⟨hseen, fun f hf hcode => ?_⟩
    obtain ⟨e, he, rfl⟩ := decode_guarded hf (List.mem_cons_of_mem _ hcode)
    exact hseen e he hcode

end Codec

namespace Cbor

/-- A body that breaks off in an array under a key, after the announcement of its items and one of them. -/
def announcing (n : Nat) : List UInt8 := [0xa1, 0x61, 0x78] ++ Width.eight.head 4 n ++ [0xf6]

theorem meetsFirst_announcing {lim : Limits} {n : Nat} (hdepth : 0 < lim.depth) (hsize : 1 ≤ lim.size)
    (hn : n < 256 ^ 8) (hmany : lim.size < n) : MeetsFirst (Met.Exceeds lim) (announcing n) ⟨1, some n⟩ := by
  let layer : Layer := .value (some .inline) 1 [] (.whole .inline [0x78])
  have small : ¬ Met.Exceeds lim ⟨0, some 1⟩ := by
    rintro (hdeep | ⟨k, hk, hlt⟩)
    · exact Nat.not_le.2 hdepth hdeep
    · obtain rfl := Option.some.inj hk
      exact Nat.not_le.2 hlt hsize
  have point : Point (Met.Exceeds lim) [layer] :=
    ⟨by simp +decide [layer, Layer.Fits, Strand.Fits, Width.Fits], by simp [layer, Layer.Lacks], by simp,
      by simpa [layer, met, Layer.heads] using small⟩
  have ready : ∀ l ∈ [layer], l.Ready := by simp [layer, Layer.Ready]
  have announced : ∀ v ∈ some Width.eight, v.Fits n := by
    intro v hv
    obtain rfl := Option.some.inj hv
    exact hn
  exact .intro [0xf6] point ready (.inl rfl) announced (.inr ⟨n, rfl, hmany⟩)

end Cbor

theorem Codec.refusesAt_first_million : (Envelope.pack (Cbor.announcing 1000000)).length ≤ 512 ∧
    narrow.RefusesAt (Cbor.announcing 1000000) ⟨1, some 1000000⟩ := by
  have hsize : (Envelope.pack (Cbor.announcing 1000000)).length ≤ 512 := by decide
  obtain ⟨first, -⟩ := refusesAt_first narrow hsize
  refine ⟨hsize, (first _ (Cbor.meetsFirst_announcing ?_ ?_ ?_ ?_)).2 (by simp)⟩
  all_goals decide

/-- The greatest count of all is not refused: it is taken for an unknown one. -/
theorem Codec.refusesAt_greatest : ¬ ∀ (c : Codec .truth) (body : List UInt8),
    (Envelope.pack body).length ≤ c.options.maxPayloadBytes.toNat →
    ∀ m, MeetsFirst (Met.Exceeds (c.limitsOn body)) body m → c.RefusesAt body m := by
  intro h
  have hmeets : MeetsFirst (Met.Exceeds (narrow.limitsOn (Cbor.announcing 0xffffffffffffffff)))
      (Cbor.announcing 0xffffffffffffffff) ⟨1, some 0xffffffffffffffff⟩ := by
    apply Cbor.meetsFirst_announcing
    all_goals decide
  have hseen : narrow.inspect (Envelope.pack (Cbor.announcing 0xffffffffffffffff)) = .error (.body .malformed) := rfl
  have hclaimed := (h narrow _ (by decide) _ hmeets).seen
  rw [hseen] at hclaimed
  exact Met.rejection_ne (Envelope.Fault.body.inj (Except.error.inj hclaimed)).symm

-- the body breaks off, and with a stop at its end it is read
example : Codec.narrow.inspect (Envelope.pack (Cbor.announcing 0xffffffffffffffff ++ [0xff])) =
    .ok (.object [("x", .array [.null])]) := rfl

end TurnCodec
