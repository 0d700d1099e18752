import TurnCodec.Proofs.Cbor.Body
/-! How many values the open containers lack, and how many a token opens places for. A body
is complete only when no value is lacking, and what the writer gives for a tree, even for
one with discarded values in it, lacks some before its last token. -/

namespace TurnCodec.Cbor

/-- The values that an open container lacks after the next one; keys count as values. A stop
that has to come counts as nothing. -/
def Frame.lacking : Frame → Nat
  | items _ (some n) => n - 1
  | keys _ (some n) => 2 * max n 1 - 1
  | value _ (some n) _ => 2 * max n 1 - 2
  | _ => 0

def lacking (frames : List Frame) : Nat := (frames.map Frame.lacking).sum

/-- The places for values that a token opens. Behind a tag there is one. -/
def Token.opened : Token → Nat
  | array (some n) => n
  | map (some n) => 2 * n
  | tag => 1
  | _ => 0

def opened (tokens : List Token) : Nat := (tokens.map Token.opened).sum

@[simp] theorem lacking_nil : lacking [] = 0 := rfl

@[simp] theorem lacking_cons (f : Frame) (frames : List Frame) : lacking (f :: frames) = f.lacking + lacking frames := by
  simp [lacking]

@[simp] theorem opened_nil : opened [] = 0 := rfl

@[simp] theorem opened_cons (token : Token) (tokens : List Token) :
    opened (token :: tokens) = token.opened + opened tokens := by
  simp [opened]

@[simp] theorem opened_append (as bs : List Token) : opened (as ++ bs) = opened as + opened bs := by
  simp [opened]

/-- At least `n` values are lacking; a complete body lacks none. -/
def Progress.Lacks (n : Nat) : Progress → Prop
  | complete _ => n = 0
  | within frames => n ≤ lacking frames + 1

/-- A value takes one place at most. -/
theorem lacks_place (t : Tree) (frames : List Frame) : ∀ p, place t frames = .ok p → p.Lacks (lacking frames) := by
  induction frames generalizing t with
  | nil =>
    rintro _ ⟨⟩
    rfl
  | cons f frames ih =>
    cases f with
    | items done left =>
      rcases left with _ | _ | _ | n
      · rw [place_free_item]
        rintro _ ⟨⟩
        simp [Progress.Lacks, Frame.lacking]
      · simpa [place, Frame.lacking] using ih _
      · simpa [place_last_item, Frame.lacking] using ih _
      · rw [place_item]
        rintro _ ⟨⟩
        simp only [Progress.Lacks, lacking_cons, Frame.lacking]
        omega
    | keys done left =>
      unfold place
      split
      · rintro _ ⟨⟩
        cases left with
        | none => simp [Progress.Lacks, Frame.lacking]
        | some n =>
          simp only [Progress.Lacks, lacking_cons, Frame.lacking]
          omega
      · rintro _ ⟨⟩
    | value done left key =>
      rcases left with _ | _ | _ | n
      · rw [place_free_value]
        rintro _ ⟨⟩
        simp [Progress.Lacks, Frame.lacking]
      · simpa [place, Frame.lacking] using ih _
      · simpa [place_last_value, Frame.lacking] using ih _
      · rw [place_value]
        rintro _ ⟨⟩
        simp only [Progress.Lacks, lacking_cons, Frame.lacking]
        omega

theorem lacks_step (lim : Limits) (frames : List Frame) (token : Token) :
    ∀ p, step lim frames token = .ok p → p.Lacks (lacking frames + token.opened) := by
  cases token with
  | scalar t => exact lacks_place t frames
  | array count =>
    intro p h
    obtain ⟨_, -, h⟩ := bind_eq_ok.1 h
    split at h
    · rename_i hcount
      simpa [hcount, Token.opened] using lacks_place _ frames p h
    · cases h
      cases count with
      | none => simp [Progress.Lacks, Frame.lacking, Token.opened]
      | some n =>
        simp only [Progress.Lacks, lacking_cons, Frame.lacking, Token.opened]
        omega
  | map count =>
    intro p h
    obtain ⟨_, -, h⟩ := bind_eq_ok.1 h
    split at h
    · rename_i hcount
      simpa [hcount, Token.opened] using lacks_place _ frames p h
    · cases h
      cases count with
      | none => simp [Progress.Lacks, Frame.lacking, Token.opened]
      | some n =>
        simp only [Progress.Lacks, lacking_cons, Frame.lacking, Token.opened]
        omega
  | stop =>
    intro p h
    simp only [step] at h
    split at h
    · simpa [Frame.lacking, Token.opened] using lacks_place _ _ p h
    · simpa [Frame.lacking, Token.opened] using lacks_place _ _ p h
    · cases h
  | tag => rintro _ ⟨⟩

/-- A body that is complete after some tokens has had one more of them than places opened. -/
theorem opened_lt_of_complete {lim : Limits} {frames : List Frame} {tokens : List Token} {t : Tree}
    (h : feed lim (.within frames) tokens = .ok (.complete t)) : lacking frames + opened tokens < tokens.length := by
  induction tokens generalizing frames with
  | nil => cases h
  | cons token tokens ih =>
    obtain ⟨p, hstep, hrest⟩ := bind_eq_ok.1 h
    have hlacks := lacks_step lim frames token p hstep
    cases p with
    | complete u =>
      cases tokens with
      | nil =>
        simp only [Progress.Lacks] at hlacks
        simp only [opened_cons, opened_nil, List.length_cons, List.length_nil]
        omega
      | cons next tokens => cases hrest
    | within frames' =>
      have hlater := ih hrest
      simp only [Progress.Lacks] at hlacks
      simp only [opened_cons, List.length_cons]
      omega

/-- Tokens of `n` values or fewer, the last of which is not over before its last token: any
beginning of them opens places for what follows it. -/
structure Values (n : Nat) (ss : List Spelling) : Prop where
  whole : ss.length ≤ opened (ss.map (·.token)) + n
  part : ∀ as s cs, ss = as ++ s :: cs → as.length + 1 ≤ opened (as.map (·.token)) + n

namespace Values

variable {m n : Nat} {ss us : List Spelling}

theorem nil (n : Nat) : Values n [] where
  whole := Nat.zero_le _
  part := by simp

/-- A token that opens places, and what fills them. -/
theorem opening {s : Spelling} (hs : s.token.opened = n) (hss : Values n ss) : Values 1 (s :: ss) where
  whole := by
    have := hss.whole
    simp only [List.length_cons, List.map_cons, opened_cons]
    omega
  part as u cs h := by
    cases as with
    | nil => simp
    | cons a as =>
      obtain ⟨rfl, rfl⟩ := List.cons_eq_cons.1 h
      have := hss.part as u cs rfl
      simp only [List.length_cons, List.map_cons, opened_cons]
      omega

theorem single {s : Spelling} (hs : s.token.opened = 0) : Values 1 [s] := opening hs (nil 0)

theorem append (hs : Values m ss) (hu : Values n us) : Values (m + n) (ss ++ us) where
  whole := by
    have := hs.whole
    have := hu.whole
    simp only [List.length_append, List.map_append, opened_append]
    omega
  part as s cs h := by
    have hwhole := hs.whole
    rcases List.append_eq_append_iff.1 h with ⟨mid, rfl, hmid⟩ | ⟨mid, rfl, hcs⟩
    · have := hu.part mid s cs hmid
      simp only [List.length_append, List.map_append, opened_append]
      omega
    · cases mid with
      | nil =>
        have := hu.part [] s cs hcs.symm
        simp only [List.append_nil, opened_nil, List.map_nil, List.length_nil] at this hwhole
        omega
      | cons u mid =>
        obtain ⟨rfl, rfl⟩ := List.cons_eq_cons.1 hcs
        have := hs.part as s mid rfl
        omega

theorem flatMap {α : Type} {f : α → List Spelling} {xs : List α} (h : ∀ x ∈ xs, Values n (f x)) :
    Values (n * xs.length) (xs.flatMap f) := by
  induction xs with
  | nil => exact nil 0
  | cons x xs ih =>
    obtain ⟨hx, hxs⟩ := List.forall_mem_cons.1 h
    rw [List.flatMap_cons, List.length_cons, Nat.mul_succ, Nat.add_comm]
    exact hx.append (ih hxs)

/-- One value is not complete before its last token. -/
theorem unfinished (h : Values 1 ss) : Unfinished ss := by
  intro as s cs hss lim _ t hfeed
  have hpart := h.part as s cs hss
  have hlt := opened_lt_of_complete hfeed
  rw [List.length_map, lacking_nil] at hlt
  omega

end Values

end TurnCodec.Cbor

namespace TurnCodec.Tree

open Cbor

theorem sound_spellings {t : Tree} (h : t.All SmallHere) : ∀ s ∈ t.spellings, s.Sound := by
  have plain {b : List UInt8} (hb : b.length < 2 ^ 64) : (Strand.plain b).Fits := Width.fits_least hb
  have text {s : String} (hs : s.length < 2 ^ 64) : (Spelling.text (.plain (Text.bytes s))).Sound :=
    Spelling.sound_text (plain (by rwa [Text.length_bytes]))
  induction t with
  | null => simp [spellings, Spelling.sound_null]
  | bool b => simp [spellings, Spelling.sound_bool]
  | int n =>
    have fits : (Item.ofInteger n).Fits := Item.all_leaf (Item.nodes_ofInteger n) (Item.fits_ofInteger n)
    exact fits.sound
  | float x =>
    have fits : (Item.ofFloat x).Fits := Item.all_leaf (Item.nodes_ofFloat x) (Item.fits_ofFloat x)
    exact fits.sound
  | text s =>
    rw [spellings, List.forall_mem_singleton]
    exact text h.self
  | bytes b m =>
    have hbytes : (Spelling.byteString (.plain b)).Sound := Spelling.sound_byteString (plain h.self)
    exact (Item.tagged_ofSubtype _).sound (by rwa [List.forall_mem_singleton])
  | array items ih =>
    obtain ⟨hhere, hitems⟩ := all_array.1 h
    rw [spellings, itemSpellings_eq, List.forall_mem_cons, List.forall_mem_flatMap]
    refine ⟨Spelling.sound_array ?_, fun t ht => ih t ht (hitems t ht)⟩
    rintro _ ⟨⟩
    exact Width.fits_least (Nat.lt_trans hhere (by decide))
  | object fields ih =>
    obtain ⟨⟨hcount, hkeys⟩, hfields⟩ := all_object.1 h
    rw [spellings, fieldSpellings_eq, List.forall_mem_cons, List.forall_mem_flatMap]
    refine ⟨Spelling.sound_map ?_, fun f hf => List.forall_mem_cons.2 ⟨text (hkeys f hf), ih f hf (hfields f hf)⟩⟩
    rintro _ ⟨⟩
    exact Width.fits_least (Nat.lt_trans hcount (by decide))
  | discarded => simp [spellings]

/-- A tree is one value, or none where it is discarded. -/
theorem values_spellings {t : Tree} (h : t.All SmallHere) : Values 1 t.spellings := by
  induction t with
  | int n =>
    rw [spellings, Item.ofInteger]
    split <;> exact .single rfl
  | float x =>
    rw [spellings, Item.ofFloat]
    repeat' split
    all_goals exact .single rfl
  | bytes b m =>
    have hbytes : Values 1 [Spelling.byteString (.plain b)] := .single rfl
    cases m with
    | none => exact hbytes
    | some n => exact .opening rfl hbytes
  | array items ih =>
    obtain ⟨hhere, hitems⟩ := all_array.1 h
    rw [spellings, itemSpellings_eq]
    refine .opening ?_ (.flatMap fun t ht => ih t ht (hitems t ht))
    rw [Spelling.token_array, Spelling.bind_announced _ hhere, Nat.one_mul]
    rfl
  | object fields ih =>
    obtain ⟨⟨hcount, -⟩, hfields⟩ := all_object.1 h
    rw [spellings, fieldSpellings_eq]
    refine .opening ?_ (.flatMap fun f hf => (Values.single rfl).append (ih f hf (hfields f hf)))
    rw [Spelling.token_map, Spelling.bind_announced _ hcount]
    rfl
  | discarded => exact .nil 1
  | _ => exact .single rfl

/-- What is written for a tree, whether or not it has discarded values, is refused when bytes
of it are lacking. -/
theorem read_take_toCbor {t : Tree} (h : t.All SmallHere) (depth : Nat) {n : Nat} (hsize : n < 0xffffffffffffffff)
    (hn : n < t.toCbor.length) : ∃ why, read depth (t.toCbor.take n) = .error why := by
  rw [← spelled_spellings] at hn ⊢
  exact read_take_spelled (sound_spellings h) (values_spellings h).unfinished depth hsize hn

end TurnCodec.Tree
