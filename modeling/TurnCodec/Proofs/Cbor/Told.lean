import TurnCodec.Proofs.Cbor.Item
/-! What is read is spelled out: a token is read from the bytes of a scalar item, of the head of a
container, of a stop or of a tag, and from nothing else. -/

namespace TurnCodec.Cbor

namespace Item

def IsScalar : Item → Prop
  | array _ _ | map _ _ => False
  | _ => True

theorem fits_scalar {x : Item} (hx : x.IsScalar) (h : x.FitsHere) : x.Fits := by
  cases x with
  | array w items => exact absurd hx id
  | map w entries => exact absurd hx id
  | _ => simpa [Fits, All, nodes] using h

end Item

/-- The bytes are those of the token. -/
inductive Token.Told : Token → List UInt8 → Prop
  | scalar {x : Item} (hx : x.IsScalar) (fits : x.FitsHere) : Told (.scalar x.tree) x.encode
  | array {w : Option Width} {n : Nat} (fits : ∀ v ∈ w, v.Fits n) :
      Told (Spelling.array w n).token (Spelling.array w n).bytes
  | map {w : Option Width} {n : Nat} (fits : ∀ v ∈ w, v.Fits n) :
      Told (Spelling.map w n).token (Spelling.map w n).bytes
  | stop : Told .stop Spelling.stop.bytes
  | tag {w : Width} {n : Nat} (fits : w.Fits n) : Told .tag (Spelling.tag w n).bytes

theorem Width.Fits.lt {w : Width} {n : Nat} (h : w.Fits n) : n < 2 ^ 64 := by
  cases w <;> simp only [Fits, size] at h <;> omega

theorem head_of_argument? {major n : Nat} {b : UInt8} {bs rest : List UInt8} (hdiv : b.toNat / 32 = major)
    (h : argument? (b.toNat % 32) bs = some (n, rest)) : ∃ w : Width, w.Fits n ∧ b :: bs = w.head major n ++ rest := by
  obtain ⟨w, hfits, hinfo, rfl⟩ := argument?_eq_some h
  exact ⟨w, hfits, Width.cons_eq_head hdiv hinfo rest⟩

theorem be_of_split? {k : Nat} {bs b rest : List UInt8} (h : split? k bs = some (b, rest)) :
    ofBe b < 256 ^ k ∧ bs = be k (ofBe b) ++ rest := by
  obtain ⟨rfl, rfl⟩ := split?_eq_some h
  exact ⟨ofBe_lt b, by rw [be_ofBe]⟩

namespace Token

theorem Told.of_scalar {x : Item} {bytes : List UInt8} (hx : x.IsScalar) (fits : x.FitsHere) (h : x.encode = bytes) :
    Told (.scalar x.tree) bytes := h ▸ .scalar hx fits

theorem told_natural {w : Width} {n : Nat} (h : w.Fits n) :
    Told (.scalar (.int (.ofUInt64 (UInt64.ofNat n)))) (w.head 0 n) := by
  have hn : (UInt64.ofNat n).toNat = n := UInt64.toNat_ofNat_of_lt' h.lt
  refine .of_scalar (x := .natural w (UInt64.ofNat n)) trivial ?_ ?_
  · rwa [Item.FitsHere, hn]
  · simp [Item.encode, Item.spellings, spelled, Spelling.natural, hn]

theorem told_negative {w : Width} {n : Nat} (h : w.Fits n) :
    Told (.scalar (.int (.complement (UInt64.ofNat n)))) (w.head 1 n) := by
  have hn : (UInt64.ofNat n).toNat = n := UInt64.toNat_ofNat_of_lt' h.lt
  refine .of_scalar (x := .negative w (UInt64.ofNat n)) trivial ?_ ?_
  · rwa [Item.FitsHere, hn]
  · simp [Item.encode, Item.spellings, spelled, Spelling.negative, hn]

theorem told_bytes {s : Strand} (h : s.Fits) : Told (.scalar (.bytes s.content none)) (s.encode 2) :=
  .of_scalar (x := .bytes s) trivial h (by simp [Item.encode, Item.spellings, spelled, Spelling.byteString])

theorem told_text {s : Strand} (h : s.Fits) : Told (.scalar (.text (Text.ofBytes s.content))) (s.encode 3) :=
  .of_scalar (x := .text s) trivial h (by simp [Item.encode, Item.spellings, spelled, Spelling.text])

/-- The opening of a container, by the head that it would have with announced entries. -/
theorem told_opening {token : Option Nat → Token} {opening : Option Width → Nat → Spelling} {major : Nat} {b : UInt8}
    {bs rest : List UInt8} {count : Option Nat} (hdiv : b.toNat / 32 = major)
    (hsome : ∀ w n, opening (some w) n = ⟨token (announced n), w.head major n⟩)
    (hnone : b.toNat % 32 = 31 → opening none 0 = ⟨token none, [b]⟩)
    (told : ∀ {w : Option Width} {n : Nat}, (∀ v ∈ w, v.Fits n) → Told (opening w n).token (opening w n).bytes)
    (h : count? (b.toNat % 32) bs = some (count, rest)) :
    ∃ bytes, Told (token count) bytes ∧ b :: bs = bytes ++ rest := by
  unfold count? at h
  split at h
  · obtain ⟨rfl, rfl⟩ := Prod.ext_iff.1 (Option.some.inj h)
    have htold := told (w := none) (n := 0) (by simp)
    rw [hnone ‹_›] at htold
    exact ⟨_, htold, rfl⟩
  · obtain ⟨⟨n, left⟩, hn, h⟩ := Option.map_eq_some_iff.1 h
    obtain ⟨rfl, rfl⟩ := Prod.ext_iff.1 h
    obtain ⟨w, hfits, hbytes⟩ := head_of_argument? hdiv hn
    have htold := told (w := some w) (n := n) (by simpa using hfits)
    rw [hsome] at htold
    exact ⟨_, htold, hbytes⟩

/-- A float of `k` bytes, where these are told from the number that they hold. -/
theorem told_float (k : Nat) (x : Nat → Item) {b : UInt8} {bs rest : List UInt8} {token : Token}
    (hx : ∀ n < 256 ^ k, (x n).IsScalar ∧ (x n).FitsHere ∧ (x n).encode = b :: be k n)
    (h : ((split? k bs).map fun p => (scalar (x (ofBe p.1)).tree, p.2)) = some (token, rest)) :
    ∃ bytes, Told token bytes ∧ b :: bs = bytes ++ rest := by
  obtain ⟨⟨content, left⟩, hcontent, h⟩ := Option.map_eq_some_iff.1 h
  obtain ⟨rfl, rfl⟩ := Prod.ext_iff.1 h
  obtain ⟨hlt, rfl⟩ := be_of_split? hcontent
  obtain ⟨hscalar, hfits, hencode⟩ := hx _ hlt
  exact ⟨_, .scalar hscalar hfits, by rw [hencode, List.cons_append]⟩

theorem told_simple {b : UInt8} {bs rest : List UInt8} {token : Token} (hdiv : b.toNat / 32 = 7)
    (h : simple? (b.toNat % 32) bs = some (token, rest)) : ∃ bytes, Told token bytes ∧ b :: bs = bytes ++ rest := by
  have initial (info : Nat) (hinfo : b.toNat % 32 = info) : b = UInt8.ofNat (32 * 7 + info) :=
    eq_initial_byte hdiv hinfo
  unfold simple? at h
  split at h
  · obtain ⟨rfl, rfl⟩ := Prod.ext_iff.1 (Option.some.inj h)
    exact ⟨_, .scalar (x := .bool false) trivial trivial, by rw [initial 20 ‹_›]; rfl⟩
  · obtain ⟨rfl, rfl⟩ := Prod.ext_iff.1 (Option.some.inj h)
    exact ⟨_, .scalar (x := .bool true) trivial trivial, by rw [initial 21 ‹_›]; rfl⟩
  · obtain ⟨rfl, rfl⟩ := Prod.ext_iff.1 (Option.some.inj h)
    exact ⟨_, .scalar (x := .null) trivial trivial, by rw [initial 22 ‹_›]; rfl⟩
  · refine told_float 2 (fun n => .half (UInt16.ofNat n)) (fun n hn => ⟨trivial, trivial, ?_⟩) h
    have hbits : (UInt16.ofNat n).toNat = n := UInt16.toNat_ofNat_of_lt' hn
    rw [initial 25 ‹_›, Item.encode, Item.spellings, spelled, List.flatMap_singleton, Spelling.half, hbits]
    rfl
  · refine told_float 4 (fun n => .single (UInt32.ofNat n)) (fun n hn => ⟨trivial, trivial, ?_⟩) h
    have hbits : (UInt32.ofNat n).toNat = n := UInt32.toNat_ofNat_of_lt' hn
    rw [initial 26 ‹_›, Item.encode, Item.spellings, spelled, List.flatMap_singleton, Spelling.single, hbits]
    rfl
  · refine told_float 8 (fun n => .double ⟨UInt64.ofNat n⟩) (fun n hn => ⟨trivial, trivial, ?_⟩) h
    have hbits : (UInt64.ofNat n).toNat = n := UInt64.toNat_ofNat_of_lt' hn
    rw [initial 27 ‹_›, Item.encode, Item.spellings, spelled, List.flatMap_singleton, Spelling.double, hbits]
    rfl
  · obtain ⟨rfl, rfl⟩ := Prod.ext_iff.1 (Option.some.inj h)
    exact ⟨_, .stop, by rw [initial 31 ‹_›]; rfl⟩
  · cases h

/-- A token is read from bytes of its own, and the rest is left. -/
theorem told_of_read? {bs rest : List UInt8} {token : Token} (h : read? bs = some (token, rest)) :
    ∃ bytes, Told token bytes ∧ bs = bytes ++ rest := by
  rcases bs with _ | ⟨b, bs⟩
  · cases h
  have told {α : Type} {o : Option (α × List UInt8)} (f : α → Token)
      (h : (o.map fun p => (f p.1, p.2)) = some (token, rest)) : ∃ a, o = some (a, rest) ∧ token = f a := by
    obtain ⟨⟨a, left⟩, ho, heq⟩ := Option.map_eq_some_iff.1 h
    obtain ⟨rfl, rfl⟩ := Prod.ext_iff.1 heq
    exact ⟨a, ho, rfl⟩
  simp only [read?] at h
  split at h
  · obtain ⟨n, hn, rfl⟩ := told (fun n => .scalar (.int (.ofUInt64 (UInt64.ofNat n)))) h
    obtain ⟨w, hfits, hbytes⟩ := head_of_argument? ‹_› hn
    exact ⟨_, told_natural hfits, hbytes⟩
  · obtain ⟨n, hn, rfl⟩ := told (fun n => .scalar (.int (.complement (UInt64.ofNat n)))) h
    obtain ⟨w, hfits, hbytes⟩ := head_of_argument? ‹_› hn
    exact ⟨_, told_negative hfits, hbytes⟩
  · obtain ⟨content, hcontent, rfl⟩ := told (fun b => .scalar (.bytes b none)) h
    obtain ⟨s, hfits, rfl, hbytes⟩ := Strand.exists_of_read ‹_› hcontent
    exact ⟨_, told_bytes hfits, hbytes⟩
  · obtain ⟨content, hcontent, rfl⟩ := told (fun b => .scalar (.text (Text.ofBytes b))) h
    obtain ⟨s, hfits, rfl, hbytes⟩ := Strand.exists_of_read ‹_› hcontent
    exact ⟨_, told_text hfits, hbytes⟩
  · obtain ⟨count, hcount, rfl⟩ := told array h
    refine told_opening ‹_› (fun _ _ => rfl) (fun hinfo => ?_) .array hcount
    rw [eq_initial_byte ‹b.toNat / 32 = 4› hinfo]
    rfl
  · obtain ⟨count, hcount, rfl⟩ := told map h
    refine told_opening ‹_› (fun _ _ => rfl) (fun hinfo => ?_) .map hcount
    rw [eq_initial_byte ‹b.toNat / 32 = 5› hinfo]
    rfl
  · obtain ⟨n, hn, rfl⟩ := told (fun _ => tag) h
    obtain ⟨w, hfits, hbytes⟩ := head_of_argument? ‹_› hn
    exact ⟨_, .tag hfits, hbytes⟩
  · rename_i h0 h1 h2 h3 h4 h5 h6
    refine told_simple ?_ h
    have hmajor : b.toNat / 32 < 8 := Nat.div_lt_of_lt_mul b.toNat_lt
    rw [imp_false] at h0 h1 h2 h3 h4 h5 h6
    omega

/-- The bytes of a token are read as the token, whatever follows them. -/
theorem Told.sound {token : Token} {bytes : List UInt8} (h : token.Told bytes) : (⟨token, bytes⟩ : Spelling).Sound := by
  cases h with
  | @scalar x hx fits =>
    have hsound := (Item.fits_scalar hx fits).sound
    have hspellings : x.spellings = [⟨.scalar x.tree, x.encode⟩] := by
      cases x with
      | array w items => exact absurd hx id
      | map w entries => exact absurd hx id
      | _ => simp [Item.spellings, Item.encode, Item.tree, spelled, Spelling.null, Spelling.bool, Spelling.natural,
          Spelling.negative, Spelling.half, Spelling.single, Spelling.double, Spelling.text, Spelling.byteString]
    exact hsound _ (by rw [hspellings]; exact List.mem_singleton_self _)
  | array fits => exact Spelling.sound_array fits
  | map fits => exact Spelling.sound_map fits
  | stop => exact Spelling.sound_stop
  | tag fits => exact Spelling.sound_tag fits

end Token

end TurnCodec.Cbor
