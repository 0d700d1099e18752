import TurnCodec.Proofs.Cbor.Script
import TurnCodec.Proofs.Payload
import TurnCodec.Proofs.Settled
/-! Raised limits. What is known of a payload under some limits is known of it under higher ones,
unless it was one of the two limits that cut the reading short: neither is looked at before what
else can be wrong with the bytes up to there has been found. -/

namespace TurnCodec

theorem Persists.foldlM {ε α β : Type} {passing : ε → Prop} {f g : β → α → Except ε β}
    (h : ∀ b a, Persists passing (f b a) (g b a)) (as : List α) (b : β) :
    Persists passing (as.foldlM f b) (as.foldlM g b) := by
  induction as generalizing b with
  | nil => exact refl _
  | cons a as ih =>
    rw [List.foldlM_cons, List.foldlM_cons]
    exact (h b a).bind ih

namespace Cbor

variable {depth depth' : Nat} (h : depth ≤ depth') (size : Nat)
include h

/-- A container that is not too deep under the lower limit is not under the higher one either, and
its announced entries are checked against the body alone. -/
theorem Builder.persists_enter (b : Builder) (count : Option Nat) :
    Persists (∃ n, · = Rejection.tooDeep n) (b.enter ⟨depth, size⟩ count) (b.enter ⟨depth', size⟩ count) := by
  unfold enter
  by_cases hdeep : depth ≤ b.stack.length
  · rw [if_pos hdeep]
    exact .of_passing ⟨depth, rfl⟩ _
  · have hdeep' : ¬ depth' ≤ b.stack.length := fun hle => hdeep (h.trans hle)
    rw [if_neg hdeep, if_neg hdeep']
    exact .refl _

theorem Builder.persists_hear (b : Builder) (e : Event) :
    Persists (∃ n, · = Rejection.tooDeep n) (b.hear ⟨depth, size⟩ e) (b.hear ⟨depth', size⟩ e) := by
  cases e with
  | opening empty count => exact (b.persists_enter h size count).bind fun _ => .refl _
  | value | key | closing => exact .refl _

/-- Whoever reads the bytes, and whatever is found wrong with them. -/
theorem Script.persists_run {ε : Type} (refuse : Rejection → ε) (b : Builder) (s : Script ε) :
    Persists (∃ n, · = refuse (.tooDeep n)) (s.run refuse ⟨depth, size⟩ b) (s.run refuse ⟨depth', size⟩ b) := by
  intro settled
  have heard : s.events.foldlM (Builder.hear ⟨depth', size⟩) b = s.events.foldlM (Builder.hear ⟨depth, size⟩) b := by
    apply Persists.foldlM (Builder.persists_hear h size) s.events b
    rintro why hwhy ⟨n, rfl⟩
    refine settled (refuse (.tooDeep n)) ?_ ⟨n, rfl⟩
    rw [run, hwhy]
  rw [run, run, heard]

theorem persists_read (body : List UInt8) :
    Persists (∃ n, · = Rejection.tooDeep n) (read depth body) (read depth' body) := by
  rw [← run_script, ← run_script]
  exact (script body).persists_run h body.length id {}

end Cbor

/-- The codes of what is refused for the limits of the options. -/
def Options.limitCodes : List String := ["payload_too_large", "nesting_too_deep"]

/-- The second options allow whatever the first ones allow. -/
structure Options.Below (o o' : Options) : Prop where
  size : o.maxPayloadBytes ≤ o'.maxPayloadBytes
  depth : o.maxNestingDepth ≤ o'.maxNestingDepth

theorem Envelope.persists_unpack {o o' : Options} (h : o.Below o') (b : List UInt8) :
    Persists (fun e : Fault => e.report.code ∈ Options.limitCodes) (unpack o b) (unpack o' b) := by
  by_cases hlarge : o.maxPayloadBytes.toNat < b.length
  · rw [unpack_large o hlarge]
    exact .of_passing (by simp [Fault.report, Options.limitCodes]) _
  have hlarge' : ¬ o'.maxPayloadBytes.toNat < b.length := fun hlt =>
    hlarge ((UInt64.le_iff_toNat_le.1 h.size).trans_lt hlt)
  unfold unpack
  simp only [if_neg hlarge, if_neg hlarge']
  split
  · rename_i found body
    split
    · exact .refl _
    split
    · exact .refl _
    intro settled
    have same : Cbor.read o'.maxNestingDepth.toNat body = Cbor.read o.maxNestingDepth.toNat body := by
      apply Cbor.persists_read (UInt64.le_iff_toNat_le.1 h.depth) body
      rintro why hwhy ⟨n, rfl⟩
      refine settled (.body (.tooDeep n)) (by rw [hwhy]) ?_
      simp [Fault.report, Options.limitCodes]
    rw [same]
  · exact .refl _

namespace Codec

variable {F : TypeFamily} {o o' : Options}

theorem inspect_raised (R : Registry F) (h : o.Below o') (b : List UInt8)
    (settled : ∀ e, inspect ⟨R, o⟩ b = .error e → e.report.code ∉ Options.limitCodes) :
    inspect ⟨R, o'⟩ b = inspect ⟨R, o⟩ b :=
  Envelope.persists_unpack h b settled

theorem decode_raised (R : Registry F) (h : o.Below o') (b : List UInt8)
    (settled : ∀ f, (decode ⟨R, o⟩ b).value = .error f → f.report.code ∉ Options.limitCodes) :
    decode ⟨R, o'⟩ b = decode ⟨R, o⟩ b := by
  have seen : inspect ⟨R, o'⟩ b = inspect ⟨R, o⟩ b :=
    inspect_raised R h b fun e he => settled (.envelope e) (decode_eq_envelope.2 he)
  rw [decode, decode, seen]

/-- Under higher limits the outcome, its fault or its response and what is logged, is what it was, unless it was
one of the two limits that was exceeded. That does not depend on how the bytes of a body are read: whoever tells the
builder of them, and finds whatever wrong, is heard to the same end. -/
theorem limits_raised (R : Registry F) (h : o.Below o') :
    (∀ b, (∀ f, (decode ⟨R, o⟩ b).value = .error f → f.report.code ∉ Options.limitCodes) →
      decode ⟨R, o'⟩ b = decode ⟨R, o⟩ b) ∧
    (∀ b, (∀ e, inspect ⟨R, o⟩ b = .error e → e.report.code ∉ Options.limitCodes) →
      inspect ⟨R, o'⟩ b = inspect ⟨R, o⟩ b) ∧
    ∀ (ε : Type) (refuse : Cbor.Rejection → ε) (s : Cbor.Script ε) (size : Nat),
      (∀ n, s.run refuse ⟨o.maxNestingDepth.toNat, size⟩ {} ≠ .error (refuse (.tooDeep n))) →
      s.run refuse ⟨o'.maxNestingDepth.toNat, size⟩ {} = s.run refuse ⟨o.maxNestingDepth.toNat, size⟩ {} := by
  refine ⟨decode_raised R h, inspect_raised R h, fun ε refuse s size settled => ?_⟩
  apply s.persists_run (UInt64.le_iff_toNat_le.1 h.depth) size refuse {}
  rintro e he ⟨n, rfl⟩
  exact settled n he

end Codec

theorem Codec.limits_raised_narrow : narrow.options.Below {} ∧
    (∃ r, (decode narrow (Envelope.pack Tree.greeting.toCbor)).value = .ok r ∧
      (decode ⟨.truth, {}⟩ (Envelope.pack Tree.greeting.toCbor)).value = .ok r) ∧
    inspect ⟨.truth, {}⟩ (Envelope.pack [0xa1, 0xff]) = .error (.body .malformed) := by
  have below : narrow.options.Below {} := ⟨by decide, by decide⟩
  obtain ⟨hdecode, hinspect, -⟩ := limits_raised .truth below
  have readable : ∃ r, Response.ofWire .truth Tree.greeting = .ok r ∧ r.validate = .ok () := ⟨_, rfl, rfl⟩
  obtain ⟨r, read, valid⟩ := readable
  have written : Response.greeting.toWire .truth = .ok Tree.greeting := rfl
  have seen : narrow.inspect (Envelope.pack Tree.greeting.toCbor) = .ok Tree.greeting :=
    inspect_pack written Tree.greeting_isBody (by decide +kernel) (by decide)
  have decoded : (decode narrow (Envelope.pack Tree.greeting.toCbor)).value = .ok r :=
    decode_eq_ok.2 ⟨_, seen, read, valid⟩
  have broken : narrow.inspect (Envelope.pack [0xa1, 0xff]) = .error (.body .malformed) := rfl
  refine ⟨below, ⟨r, decoded, ?_⟩, (hinspect _ fun e he => ?_).trans broken⟩
  · have same := hdecode _ fun f hf => nomatch decoded.symm.trans hf
    exact (congrArg Logged.value same).trans decoded
  · obtain rfl : _ = e := Except.error.inj (broken.symm.trans he)
    decide

end TurnCodec
