import TurnCodec.Proofs.Cbor.Prefix
/-! Items with tags put before some of their tokens. The reader refuses a tag wherever it stands, so
what is found of such an item is its depth at most; and it is not complete before its last token. -/

namespace TurnCodec.Cbor

/-- Tokens with tags put before some of them. -/
inductive Tagged : List Spelling → List Spelling → Prop
  | nil : Tagged [] []
  | cons (s : Spelling) {ss us : List Spelling} (h : Tagged ss us) : Tagged (s :: ss) (s :: us)
  | tag {w : Width} {n : Nat} (fits : w.Fits n) {s : Spelling} {ss us : List Spelling} (h : Tagged (s :: ss) us) :
      Tagged (s :: ss) (.tag w n :: us)

/-- Whether a tag is among the tokens. -/
def HasTag (ss : List Spelling) : Prop := ∃ s ∈ ss, s.token = .tag

theorem hasTag_cons {s : Spelling} {ss : List Spelling} : HasTag (s :: ss) ↔ s.token = .tag ∨ HasTag ss :=
  List.exists_mem_cons_iff _ _ _

theorem hasTag_text {t : Strand} {ss : List Spelling} : HasTag (.text t :: ss) ↔ HasTag ss :=
  hasTag_cons.trans (by simp [Spelling.text])

theorem hasTag_append {ss us : List Spelling} : HasTag (ss ++ us) ↔ HasTag ss ∨ HasTag us := by
  simp only [HasTag, List.mem_append, or_and_right, exists_or]

theorem hasTag_flatMap {α : Type} {f : α → List Spelling} {xs : List α} :
    HasTag (xs.flatMap f) ↔ ∃ x ∈ xs, HasTag (f x) := by
  simp only [HasTag, List.mem_flatMap]
  constructor
  · rintro ⟨s, ⟨x, hx, hs⟩, htag⟩
    exact ⟨x, hx, s, hs, htag⟩
  · rintro ⟨x, hx, s, hs, htag⟩
    exact ⟨s, ⟨x, hx, hs⟩, htag⟩

namespace Tagged

variable {ss us : List Spelling}

theorem refl (ss : List Spelling) : Tagged ss ss := by
  induction ss with
  | nil => exact .nil
  | cons s ss ih => exact .cons s ih

theorem append {ss' us' : List Spelling} (h : Tagged ss us) (h' : Tagged ss' us') : Tagged (ss ++ ss') (us ++ us') := by
  induction h with
  | nil => exact h'
  | cons s h ih => exact .cons s ih
  | tag fits h ih => exact .tag fits ih

theorem flatMap {α : Type} {f g : α → List Spelling} {xs : List α} (h : ∀ x ∈ xs, Tagged (f x) (g x)) :
    Tagged (xs.flatMap f) (xs.flatMap g) := by
  induction xs with
  | nil => exact .nil
  | cons x xs ih =>
    obtain ⟨hx, hxs⟩ := List.forall_mem_cons.1 h
    exact hx.append (ih hxs)

theorem sound (h : Tagged ss us) (hss : ∀ s ∈ ss, s.Sound) : ∀ s ∈ us, s.Sound := by
  induction h with
  | nil => exact hss
  | cons s h ih =>
    obtain ⟨hs, hrest⟩ := List.forall_mem_cons.1 hss
    exact List.forall_mem_cons.2 ⟨hs, ih hrest⟩
  | tag fits h ih => exact List.forall_mem_cons.2 ⟨Spelling.sound_tag fits, ih hss⟩

theorem length_le (h : Tagged ss us) : (spelled ss).length ≤ (spelled us).length := by
  induction h with
  | nil => exact le_rfl
  | cons s h ih =>
    rw [spelled_cons, spelled_cons, List.length_append, List.length_append]
    omega
  | tag fits h ih =>
    rw [spelled_cons (.tag _ _), List.length_append]
    omega

theorem eq_of_not_hasTag (h : Tagged ss us) (hus : ¬ HasTag us) : us = ss := by
  induction h with
  | nil => rfl
  | cons s h ih => rw [ih fun htag => hus (hasTag_cons.2 (.inr htag))]
  | tag fits h ih => exact absurd (hasTag_cons.2 (.inl rfl)) hus

/-- Before the first tag the tokens are as they would be without tags. -/
theorem exists_first (h : Tagged ss us) (hus : HasTag us) :
    ∃ as t cs bs, us = as ++ t :: cs ∧ t.token = .tag ∧ ss = as ++ bs := by
  induction h with
  | nil => exact absurd hus (by simp [HasTag])
  | @cons s ss us h ih =>
    by_cases hs : s.token = .tag
    · exact ⟨[], s, us, s :: ss, rfl, hs, rfl⟩
    · obtain ⟨as, t, cs, bs, rfl, ht, rfl⟩ := ih ((hasTag_cons.1 hus).resolve_left hs)
      exact ⟨s :: as, t, cs, bs, rfl, ht, rfl⟩
  | @tag w n fits s ss us h ih => exact ⟨[], .tag w n, us, s :: ss, rfl, rfl, rfl⟩

/-- A beginning without a tag is a beginning of what there would be without tags. -/
theorem exists_of_append {as cs : List Spelling} {s : Spelling} (h : Tagged ss (as ++ s :: cs)) (has : ¬ HasTag as) :
    ∃ s' cs', ss = as ++ s' :: cs' := by
  induction as generalizing ss with
  | nil =>
    cases h with
    | cons s h => exact ⟨s, _, rfl⟩
    | tag fits h => exact ⟨_, _, rfl⟩
  | cons a as ih =>
    rw [hasTag_cons, not_or] at has
    cases h with
    | cons a h =>
      obtain ⟨s', cs', rfl⟩ := ih h has.2
      exact ⟨s', cs', rfl⟩
    | tag fits h => exact absurd rfl has.1

end Tagged

variable {lim : Limits} {ss us : List Spelling}

theorem feed_hasTag (h : HasTag ss) (p q : Progress) : feed lim p (ss.map (·.token)) ≠ .ok q := by
  induction ss generalizing p with
  | nil => exact absurd h (by simp [HasTag])
  | cons s ss ih =>
    cases p with
    | complete t => simp [feed]
    | within frames =>
      intro hfeed
      obtain ⟨mid, hstep, hrest⟩ := bind_eq_ok.1 hfeed
      rcases hasTag_cons.1 h with hs | hss
      · simp only [hs] at hstep
        cases hstep
      · exact ih hss mid hrest

theorem Unfinished.tagged (h : Unfinished ss) (htagged : Tagged ss us) : Unfinished us := by
  intro as s cs hus lim hsize t
  by_cases has : HasTag as
  · exact feed_hasTag has _ _
  · obtain ⟨s', cs', hss⟩ := Tagged.exists_of_append (hus ▸ htagged) has
    exact h as s' cs' hss lim hsize t

/-- A body with a tag in it is refused for it, if not for its depth before. -/
theorem read_tagged {x : Item} (fits : x.Fits) (htagged : Tagged x.spellings ss) (htag : HasTag ss)
    (hlength : (spelled ss).length < 0xffffffffffffffff) (depth : Nat) :
    read depth (spelled ss) = .error .malformed ∨
      depth < x.depth ∧ read depth (spelled ss) = .error (.tooDeep depth) := by
  have hsound := htagged.sound fits.sound
  obtain ⟨as, t, cs, bs, rfl, ht, hx⟩ := htagged.exists_first htag
  let lim : Limits := ⟨depth, (spelled (as ++ t :: cs)).length⟩
  have hcount : x.All fun n => n.count ≤ lim.size := fun n hn => (x.count_le n hn).trans htagged.length_le
  have hfed : feed lim (.within []) x.tokens =
      if x.depth ≤ depth then .ok (.complete x.tree) else .error (.tooDeep depth) := by
    have hplaced := x.fed hlength hcount [] (by simp [Open]) (Nat.zero_le _)
    rwa [List.length_nil, Nat.zero_add, place] at hplaced
  have hbody : spelled (as ++ [t]) ++ spelled cs = spelled (as ++ t :: cs) := by
    rw [← spelled_append, List.append_assoc, List.singleton_append]
  have hbefore : ∀ s ∈ as ++ [t], s.Sound := by
    intro s hs
    apply hsound
    rw [← List.singleton_append, ← List.append_assoc]
    exact List.mem_append_left _ hs
  obtain ⟨fuel, hread⟩ := read_spelled hbefore depth (spelled cs)
  rw [hbody, List.map_append, feed_append] at hread
  rw [Item.tokens, hx, List.map_append, feed_append] at hfed
  change read depth (spelled (as ++ t :: cs)) =
    proceed lim fuel (spelled cs) (feed lim (.within []) (as.map (·.token)) >>= fun p => feed lim p [t.token]) at hread
  rw [ht] at hread
  rcases hfeed : feed lim (.within []) (as.map (·.token)) with why | p
  · -- refused before the tag, so as the item would be
    rw [hfeed] at hread hfed
    rw [hread]
    by_cases hdepth : x.depth ≤ depth
    · rw [if_pos hdepth] at hfed
      cases hfed
    · rw [if_neg hdepth] at hfed
      obtain rfl : why = .tooDeep depth := Except.error.inj hfed
      exact .inr ⟨by omega, rfl⟩
  · left
    rw [hread, hfeed]
    cases p <;> rfl

end TurnCodec.Cbor
