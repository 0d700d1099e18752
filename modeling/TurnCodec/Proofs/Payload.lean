import TurnCodec.Proofs.Cbor.Builder
import TurnCodec.Proofs.Cbor.Denotation
import TurnCodec.Proofs.Cbor.Lacking
import TurnCodec.Proofs.Codec
/-! Payloads that hold one item, whole or cut short. A whole one is opened exactly when the
item is a map within the limits, and then as what the item denotes; of a part nothing is
ever opened. -/

namespace TurnCodec

namespace Envelope

theorem unpack_large (o : Options) {payload : List UInt8} (h : o.maxPayloadBytes.toNat < payload.length) :
    unpack o payload = .error (.tooLarge payload.length o.maxPayloadBytes.toNat) := if_pos h

theorem unpack_short (o : Options) {payload : List UInt8} (hlimit : payload.length ≤ o.maxPayloadBytes.toNat)
    (h : payload.length < 4) : unpack o payload = .error .shortHeader := by
  unfold unpack
  rw [if_neg (by omega)]
  split
  · simp only [List.length_cons] at h
    omega
  · rfl

theorem take_pack (body : List UInt8) (n : Nat) : (pack body).take (n + 4) = pack (body.take n) := rfl

/-- What limits leave of the outcome for a payload of `size` bytes that nests to `depth`. -/
def limited (o : Options) (size depth : Nat) (outcome : Except Fault Tree) : Except Fault Tree :=
  if o.maxPayloadBytes.toNat < size then .error (.tooLarge size o.maxPayloadBytes.toNat)
  else if o.maxNestingDepth.toNat < depth then .error (.body (.tooDeep o.maxNestingDepth.toNat))
  else outcome

def asObject : Tree → Except Fault Tree
  | .object fields => .ok (.object fields)
  | _ => .error .notObject

/-- A body of admissible size need only be read for its depth. -/
theorem unpack_limited {o : Options} {body : List UInt8} {t : Tree} {depth : Nat}
    (h : (pack body).length ≤ o.maxPayloadBytes.toNat → Cbor.read o.maxNestingDepth.toNat body =
      if depth ≤ o.maxNestingDepth.toNat then .ok t else .error (.tooDeep o.maxNestingDepth.toNat)) :
    unpack o (pack body) = limited o (pack body).length depth (asObject t) := by
  rw [unpack_pack, limited]
  split
  · rfl
  rw [h (by omega)]
  by_cases hdepth : depth ≤ o.maxNestingDepth.toNat
  · rw [if_pos hdepth, if_neg (by omega)]
    cases t <;> rfl
  · rw [if_neg hdepth, if_pos (by omega)]

end Envelope

namespace Cbor

def Item.isMap : Item → Bool
  | map _ _ => true
  | _ => false

theorem Item.isMap_iff {x : Item} : x.isMap = true ↔ ∃ fields, x.tree = .object fields := by
  cases x <;> simp [isMap, tree]

end Cbor

/-- An item, with the header before it, keeps the limits. -/
structure Options.Admits (o : Options) (x : Cbor.Item) : Prop where
  size : (Envelope.pack x.encode).length ≤ o.maxPayloadBytes.toNat
  depth : x.depth ≤ o.maxNestingDepth.toNat

namespace Envelope

variable {x : Cbor.Item} (h : x.Fits) (o : Options)
include h

theorem unpack_item : unpack o (pack x.encode) =
    limited o (pack x.encode).length x.depth (if x.isMap then .ok x.tree else .error .notObject) := by
  rw [unpack_limited fun hsize => Cbor.read_encode h (length_lt hsize) _]
  cases x <;> rfl

theorem unpack_admitted {o : Options} (hadmits : o.Admits x) :
    unpack o (pack x.encode) = if x.isMap then .ok x.tree else .error .notObject := by
  rw [unpack_item h, limited, if_neg (Nat.not_lt.2 hadmits.size), if_neg (Nat.not_lt.2 hadmits.depth)]

theorem unpack_item_eq_ok {w : Tree} :
    unpack o (pack x.encode) = .ok w ↔ o.Admits x ∧ x.isMap = true ∧ w = x.tree := by
  rw [unpack_item h, limited]
  by_cases hsize : o.maxPayloadBytes.toNat < (pack x.encode).length
  · rw [if_pos hsize]
    refine ⟨nofun, fun ⟨hadmits, _⟩ => ?_⟩
    have := hadmits.size
    omega
  rw [if_neg hsize]
  by_cases hdepth : o.maxNestingDepth.toNat < x.depth
  · rw [if_pos hdepth]
    refine ⟨nofun, fun ⟨hadmits, _⟩ => ?_⟩
    have := hadmits.depth
    omega
  rw [if_neg hdepth]
  cases hmap : x.isMap with
  | false => simp
  | true =>
    simp only [if_true, Except.ok.injEq, true_and]
    constructor
    · rintro rfl
      exact ⟨⟨by omega, by omega⟩, rfl⟩
    · rintro ⟨-, rfl⟩
      rfl

end Envelope

namespace Codec

variable {F : TypeFamily} {c : Codec F}

/-- What is decoded goes by the tree that is seen, and not by its spelling. -/
theorem decode_congr {b b' : List UInt8} (h : c.inspect b = c.inspect b') :
    (c.decode b).value = (c.decode b').value := by
  rw [decode_value, decode_value, h]

/-- A payload of one item is seen exactly when the item is a map within the limits, and then
as what the item denotes, whether its tree is collected or built in place. The guard on
announced entries never acts on it, and only what an item denotes, not how it is spelled,
counts for what is decoded. -/
theorem inspect_item (c : Codec F) {x : Cbor.Item} (h : x.Fits) :
    (∀ depth, Cbor.build depth x.encode = Cbor.read depth x.encode) ∧
    ((∃ w, c.inspect (Envelope.pack x.encode) = .ok w) ↔ c.options.Admits x ∧ x.isMap = true) ∧
    (∀ w, c.inspect (Envelope.pack x.encode) = .ok w → Cbor.Denotes x w) ∧
    (∀ announced size, c.inspect (Envelope.pack x.encode) ≠ .error (.body (.tooMany announced size))) ∧
    ∀ y w, y.Fits → Cbor.Denotes x w → Cbor.Denotes y w → c.options.Admits x → c.options.Admits y →
      (c.decode (Envelope.pack x.encode)).value = (c.decode (Envelope.pack y.encode)).value := by
  have seen {x : Cbor.Item} (h : x.Fits) {w : Tree} := Envelope.unpack_item_eq_ok h c.options (w := w)
  refine ⟨fun depth => Cbor.build_eq_read depth x.encode, ⟨?_, ?_⟩, ?_, ?_, ?_⟩
  · rintro ⟨w, hw⟩
    obtain ⟨hadmits, hmap, -⟩ := (seen h).1 hw
    exact ⟨hadmits, hmap⟩
  · rintro ⟨hadmits, hmap⟩
    exact ⟨x.tree, (seen h).2 ⟨hadmits, hmap, rfl⟩⟩
  · intro w hw
    exact Cbor.denotes_iff.2 ((seen h).1 hw).2.2
  · intro announced size
    rw [inspect, Envelope.unpack_item h, Envelope.limited]
    repeat' split
    all_goals simp
  · intro y w hy hxw hyw hx hy'
    apply decode_congr
    have htree : x.tree = y.tree := (Cbor.denotes_iff.1 hxw).symm.trans (Cbor.denotes_iff.1 hyw)
    have hmap : x.isMap = y.isMap := by
      rw [Bool.eq_iff_iff, Cbor.Item.isMap_iff, Cbor.Item.isMap_iff, htree]
    rw [inspect, inspect, Envelope.unpack_admitted h hx, Envelope.unpack_admitted hy hy', htree, hmap]

end Codec

/-- An unannounced map with heads wider than they need be, in which a key comes again, in pieces. -/
def Cbor.Item.again : Item :=
  .map none [
    (.whole .two [0x61], .array none [.array (some .four) []]),
    (.pieces [.part .one [0x61], .opening, .stop, .stop], .natural .eight 0)]

theorem Cbor.Item.fits_again : again.Fits := by
  have wide : (natural .eight 0).All FitsHere := by
    simp +decide [All, nodes, FitsHere, Width.Fits]
  simp only [again, Fits, all_map, all_array, FitsHere, List.forall_mem_cons, List.not_mem_nil, false_implies,
    implies_true, Option.mem_def, reduceCtorEq, Option.some.injEq, forall_eq', wide]
  simp +decide [Strand.Fits, Piece.Fits, Piece.Closes, Width.Fits]

theorem Codec.inspect_item_again : ∃ w, narrow.inspect (Envelope.pack Cbor.Item.again.encode) = .ok w ∧
    Cbor.Denotes Cbor.Item.again w := by
  obtain ⟨-, hseen, hdenotes, -⟩ := inspect_item narrow Cbor.Item.fits_again
  obtain ⟨w, hw⟩ := hseen.2 ⟨⟨by decide +kernel, by decide⟩, rfl⟩
  exact ⟨w, hw, hdenotes w hw⟩

namespace Codec

variable {F : TypeFamily} {c : Codec F}

/-- The first `n` bytes of a payload are refused as corrupt: for their number, for a header
that is cut, or else for the body. -/
def RefusesCut (c : Codec F) (b : List UInt8) (n : Nat) : Prop :=
  ∃ e, c.inspect (b.take n) = .error e ∧ (c.decode (b.take n)).value = .error (.envelope e) ∧
    e.report.kind = .corruptPayload ∧
    (c.options.maxPayloadBytes.toNat < n → e.report.code = "payload_too_large") ∧
    (n ≤ c.options.maxPayloadBytes.toNat → n < 4 → e.report.code = "truncated_header") ∧
    (n ≤ c.options.maxPayloadBytes.toNat → 4 ≤ n → ∃ why, e = .body why)

theorem refusesCut_pack {body : List UInt8}
    (hbody : ∀ depth n, n < 0xffffffffffffffff → n < body.length → ∃ why, Cbor.read depth (body.take n) = .error why)
    {n : Nat} (hn : n < (Envelope.pack body).length) : c.RefusesCut (Envelope.pack body) n := by
  have hlength : ((Envelope.pack body).take n).length = n := List.length_take_of_le (Nat.le_of_lt hn)
  by_cases hlarge : c.options.maxPayloadBytes.toNat < n
  · have he : c.inspect ((Envelope.pack body).take n) = .error (.tooLarge n c.options.maxPayloadBytes.toNat) := by
      rw [inspect, Envelope.unpack_large _ (by omega), hlength]
    exact ⟨_, he, decode_eq_envelope.2 he, rfl, fun _ => rfl, fun h => by omega, fun h => by omega⟩
  by_cases hshort : n < 4
  · have he : c.inspect ((Envelope.pack body).take n) = .error .shortHeader :=
      Envelope.unpack_short c.options (by omega) (by omega)
    exact ⟨_, he, decode_eq_envelope.2 he, rfl, fun h => by omega, fun _ _ => rfl, fun _ h => by omega⟩
  obtain ⟨m, rfl⟩ := Nat.exists_eq_add_of_le' (Nat.le_of_not_lt hshort)
  rw [Envelope.length_pack] at hn
  have := c.options.maxPayloadBytes.toNat_lt
  obtain ⟨why, hwhy⟩ := hbody c.options.maxNestingDepth.toNat m (by omega) (by omega)
  have he : c.inspect ((Envelope.pack body).take (m + 4)) = .error (.body why) := by
    rw [inspect, Envelope.take_pack, Envelope.unpack_pack, ← Envelope.take_pack, hlength, if_neg hlarge, hwhy]
  refine ⟨_, he, decode_eq_envelope.2 he, ?_, fun h => by omega, fun _ h => by omega, fun _ _ => ⟨why, rfl⟩⟩
  cases why <;> rfl

/-- No part of a payload is taken for a payload: not of one that holds an item, not of what is
encoded, subtypes and their tags included, and not even where discarded values left it without some
of its items. -/
theorem refusesCut (c : Codec F) :
    (∀ x : Cbor.Item, x.Fits → (Envelope.pack x.encode).length < 2 ^ 64 →
      ∀ n < (Envelope.pack x.encode).length, c.RefusesCut (Envelope.pack x.encode) n) ∧
    (∀ (write : Tree → List UInt8) (E : Codec F) (r : Response (Extension F)) (w : Tree) (b : List UInt8),
      E.wireOf r = .ok w → Cbor.IsWritten w (write w) → (E.encodeWith write r).value = .ok b → b.length < 2 ^ 64 →
      ∀ n < b.length, c.RefusesCut b n) ∧
    ∀ (E : Codec F) (r : Response (Extension F)) (w : Tree) (b : List UInt8), E.wireOf r = .ok w →
      w.All Cbor.SmallHere → (E.encode r).value = .ok b → ∀ n < b.length, c.RefusesCut b n := by
  have written {write : Tree → List UInt8} {E : Codec F} {r : Response (Extension F)} {w : Tree} {b : List UInt8}
      (hw : E.wireOf r = .ok w) (hb : (E.encodeWith write r).value = .ok b) : b = Envelope.pack (write w) := by
    obtain ⟨u, hu, rfl⟩ := encodeWith_eq_ok.1 hb
    rw [Except.ok.inj (hw.symm.trans hu)]
  refine ⟨fun x hx hlength n hn => ?_, fun write E r w b hw hwritten hb hlength n hn => ?_,
    fun E r w b hw hsmall hb n hn => ?_⟩
  · rw [Envelope.length_pack] at hlength
    exact refusesCut_pack (fun depth n _ => Cbor.read_take hx (by omega) depth) hn
  · obtain rfl := written hw hb
    rw [Envelope.length_pack] at hlength
    exact refusesCut_pack (fun depth n _ => hwritten.read_take (by omega) depth) hn
  · obtain rfl := written hw hb
    exact refusesCut_pack (fun depth n => Tree.read_take_toCbor hsmall depth) hn

end Codec

theorem Codec.refusesCut_greeting : narrow.RefusesCut (Envelope.pack Cbor.Item.again.encode) 9 ∧
    ∃ b, (encode { registry := .truth } Response.greeting).value = .ok b ∧ ∀ n < b.length, narrow.RefusesCut b n := by
  obtain ⟨item, encoded, -⟩ := refusesCut narrow
  exact ⟨item _ Cbor.Item.fits_again (by decide +kernel) 9 (by decide +kernel),
    _, rfl, encoded Tree.toCbor { registry := .truth } Response.greeting Tree.greeting _ rfl
      (Cbor.isWritten_toCbor Tree.greeting_writable) rfl (by decide +kernel)⟩

end TurnCodec
