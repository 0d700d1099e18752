import TurnCodec.Proofs.Cbor.Reading
import TurnCodec.Proofs.Cbor.Told
/-! Bodies that are cut short. A token is told by its own bytes, so more bytes after it
change nothing and fewer do not make another; and a body is not complete before its last
token. -/

namespace TurnCodec.Cbor

/-- A token is not there while bytes of it are lacking. -/
theorem Spelling.Sound.read?_eq_none {s : Spelling} (h : s.Sound) {part lacking : List UInt8}
    (hs : s.bytes = part ++ lacking) (hne : lacking ≠ []) : Token.read? part = none := by
  rcases hread : Token.read? part with _ | ⟨token, rest⟩
  · rfl
  obtain ⟨bytes, htold, rfl⟩ := Token.told_of_read? hread
  have hmore : Token.read? (bytes ++ (rest ++ lacking)) = some (token, rest ++ lacking) := htold.sound (rest ++ lacking)
  have hwhole : Token.read? s.bytes = some (s.token, []) := by simpa using h []
  rw [hs, List.append_assoc, hmore] at hwhole
  have hnil : rest ++ lacking = [] := (Prod.ext_iff.1 (Option.some.inj hwhole)).2
  exact absurd (List.append_eq_nil_iff.1 hnil).2 hne

/-- Limits that allow no less. -/
instance : LE Limits := ⟨fun lim lim' => lim.depth ≤ lim'.depth ∧ lim.size ≤ lim'.size⟩

section
variable {lim lim' : Limits} (hle : lim ≤ lim')
include hle

theorem guard_mono {frames : List Frame} {count : Option Nat} (h : guard lim frames count = .ok ()) :
    guard lim' frames count = .ok () := by
  obtain ⟨hdepth, hsize⟩ := hle
  unfold guard at h ⊢
  split at h
  · cases h
  · split at h
    · cases h
    · rw [if_neg (by omega)]
      cases count with
      | none => rfl
      | some n =>
        have hcount : ¬ lim.size < n := by
          intro hn
          simp only [if_pos hn, reduceCtorEq] at h
        exact if_neg (by omega)

/-- What a token does within limits, it does within limits that allow more. -/
theorem step_mono {frames : List Frame} {token : Token} {p : Progress} (h : step lim frames token = .ok p) :
    step lim' frames token = .ok p := by
  cases token with
  | scalar t => exact h
  | array count =>
    obtain ⟨_, hguard, hplace⟩ := bind_eq_ok.1 h
    exact bind_eq_ok.2 ⟨(), guard_mono hle hguard, hplace⟩
  | map count =>
    obtain ⟨_, hguard, hplace⟩ := bind_eq_ok.1 h
    exact bind_eq_ok.2 ⟨(), guard_mono hle hguard, hplace⟩
  | stop => exact h
  | tag => exact h

theorem feed_mono {p q : Progress} {tokens : List Token} (h : feed lim p tokens = .ok q) : feed lim' p tokens = .ok q := by
  induction tokens generalizing p with
  | nil => rwa [feed_nil] at h ⊢
  | cons token tokens ih =>
    cases p with
    | complete t => cases h
    | within frames =>
      obtain ⟨mid, hstep, hrest⟩ := bind_eq_ok.1 h
      exact bind_eq_ok.2 ⟨mid, step_mono hle hstep, ih hrest⟩

end

/-- Bytes of tokens that are cut short are whole tokens and a part of the next one. -/
theorem take_spelled {ss : List Spelling} {n : Nat} (h : n < (spelled ss).length) :
    ∃ as s cs part lacking, ss = as ++ s :: cs ∧ s.bytes = part ++ lacking ∧ lacking ≠ [] ∧
      (spelled ss).take n = spelled as ++ part := by
  induction ss generalizing n with
  | nil => simp [spelled] at h
  | cons s ss ih =>
    rw [spelled_cons] at h ⊢
    by_cases hn : n < s.bytes.length
    · refine ⟨[], s, ss, s.bytes.take n, s.bytes.drop n, rfl, (List.take_append_drop n s.bytes).symm, ?_, ?_⟩
      · rw [Ne, List.drop_eq_nil_iff]
        omega
      · rw [List.take_append_of_le_length (Nat.le_of_lt hn)]
        rfl
    · rw [List.length_append] at h
      obtain ⟨as, u, cs, part, lacking, rfl, hu, hne, htake⟩ := ih (n := n - s.bytes.length) (by omega)
      refine ⟨s :: as, u, cs, part, lacking, rfl, hu, hne, ?_⟩
      rw [List.take_append, List.take_of_length_le (by omega), htake, spelled_cons, List.append_assoc]

/-- Tokens of which no beginning is a whole body. -/
def Unfinished (ss : List Spelling) : Prop :=
  ∀ as s cs, ss = as ++ s :: cs → ∀ (lim : Limits), lim.size < 0xffffffffffffffff →
    ∀ t, feed lim (.within []) (as.map (·.token)) ≠ .ok (.complete t)

/-- Bytes of such tokens that are cut short are refused. -/
theorem read_take_spelled {ss : List Spelling} (hsound : ∀ s ∈ ss, s.Sound) (hss : Unfinished ss) (depth : Nat)
    {n : Nat} (hsize : n < 0xffffffffffffffff) (hn : n < (spelled ss).length) :
    ∃ why, read depth ((spelled ss).take n) = .error why := by
  have hlength : ((spelled ss).take n).length = n := List.length_take_of_le (Nat.le_of_lt hn)
  obtain ⟨as, s, cs, part, lacking, rfl, hs, hne, htake⟩ := take_spelled hn
  rw [List.forall_mem_append, List.forall_mem_cons] at hsound
  obtain ⟨has, hsound, -⟩ := hsound
  have hpart : Token.read? part = none := hsound.read?_eq_none hs hne
  obtain ⟨fuel, hread⟩ := read_spelled has depth part
  rw [htake] at hlength ⊢
  rw [hlength] at hread
  let lim : Limits := ⟨depth, n⟩
  rw [hread]
  cases hfeed : feed lim (.within []) (as.map (·.token)) with
  | error why => exact ⟨why, rfl⟩
  | ok p =>
    cases p with
    | complete t => exact absurd hfeed (hss as s cs rfl lim hsize t)
    | within frames =>
      refine ⟨.malformed, ?_⟩
      cases fuel with
      | zero => rfl
      | succ fuel => simp only [proceed, resume, hpart]

theorem Item.unfinished {x : Item} (hlength : x.encode.length < 0xffffffffffffffff) : Unfinished x.spellings := by
  intro as s cs hx lim hsize t h
  -- limits that the whole item keeps, so that only the tokens left over can end the reading
  let wide : Limits := ⟨max lim.depth x.depth, max lim.size x.encode.length⟩
  have hwide : feed wide (.within []) (as.map (·.token)) = .ok (.complete t) :=
    feed_mono ⟨Nat.le_max_left _ _, Nat.le_max_left _ _⟩ h
  have hcount : x.All fun n => n.count ≤ wide.size := fun n hn => (x.count_le n hn).trans (Nat.le_max_right _ _)
  have hfed := x.fed (Nat.max_lt.2 ⟨hsize, hlength⟩) hcount [] (by simp [Open]) (Nat.zero_le _)
  rw [List.length_nil, Nat.zero_add, if_pos (Nat.le_max_right _ _), place, tokens, hx, List.map_append, feed_append,
    hwide, ok_bind, List.map_cons] at hfed
  cases hfed

/-- A body that lacks bytes of its item is refused. -/
theorem read_take {x : Item} (h : x.Fits) (hlength : x.encode.length < 0xffffffffffffffff) (depth : Nat) {n : Nat}
    (hn : n < x.encode.length) : ∃ why, read depth (x.encode.take n) = .error why :=
  read_take_spelled h.sound (Item.unfinished hlength) depth (hn.trans hlength) hn

end TurnCodec.Cbor
