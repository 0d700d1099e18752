import TurnCodec.Proofs.Cbor.Head
/-! Strings as they are spelled: in one piece behind a head, or in pieces between an opening and a
stop, each of which may come in pieces again. What is read of one is what is in its pieces. -/

namespace TurnCodec.Cbor

/-- What stands between the opening of a string and its stop. -/
inductive Piece
  | opening
  | stop
  | part (w : Width) (b : List UInt8)

namespace Piece

def encode (major : Nat) : Piece → List UInt8
  | opening => [UInt8.ofNat (32 * major + 31)]
  | stop => [0xff]
  | part w b => w.head major b.length ++ b

def content : Piece → List UInt8
  | part _ b => b
  | _ => []

def Fits : Piece → Prop
  | part w b => w.Fits b.length
  | _ => True

/-- The last piece, and none before it, ends the outermost of `depth` open strings. -/
def Closes : Nat → List Piece → Prop
  | 0, ps => ps = []
  | depth + 1, opening :: ps => Closes (depth + 2) ps
  | depth + 1, stop :: ps => Closes depth ps
  | depth + 1, part _ _ :: ps => Closes (depth + 1) ps
  | _ + 1, [] => False

theorem length_le_encode (major : Nat) (ps : List Piece) : ps.length ≤ (ps.flatMap (encode major)).length := by
  induction ps with
  | nil => simp
  | cons p ps ih =>
    have hp : 1 ≤ (p.encode major).length := by cases p <;> simp [encode, Width.head]
    rw [List.flatMap_cons, List.length_append, List.length_cons]
    omega

section
variable {major : Nat} (hm : major < 7)
include hm

/-- No head of a string begins like a stop. -/
theorem initial_byte_string {info : Nat} (hi : info < 32) : UInt8.ofNat (32 * major + info) ≠ 0xff ∧
    (UInt8.ofNat (32 * major + info)).toNat / 32 = major ∧ (UInt8.ofNat (32 * major + info)).toNat % 32 = info := by
  obtain ⟨hdiv, hmod⟩ := initial_byte (show major < 8 by omega) hi
  refine ⟨fun h => ?_, hdiv, hmod⟩
  rw [h] at hdiv
  have : (0xff : UInt8).toNat / 32 = 7 := by decide
  omega

variable (fuel depth : Nat) (bs : List UInt8)

theorem read_opening : Token.pieces? major (fuel + 1) (depth + 1) (opening.encode major ++ bs) =
    Token.pieces? major fuel (depth + 2) bs := by
  obtain ⟨hne, hdiv, hmod⟩ := initial_byte_string hm (show 31 < 32 by decide)
  rw [encode, List.singleton_append, Token.pieces?, if_neg hne, if_neg (not_not.2 hdiv), if_pos hmod]

theorem read_part {w : Width} {b : List UInt8} (h : w.Fits b.length) :
    Token.pieces? major (fuel + 1) (depth + 1) ((part w b).encode major ++ bs) =
      (Token.pieces? major fuel (depth + 1) bs).map fun p => (b ++ p.1, p.2) := by
  have hinfo := w.info_lt h
  obtain ⟨hne, hdiv, hmod⟩ := initial_byte_string hm (show w.info b.length < 32 by omega)
  rw [encode, Width.head, List.cons_append, List.cons_append, List.append_assoc, Token.pieces?, if_neg hne,
    if_neg (not_not.2 hdiv), hmod, if_neg (by omega), Width.argument?_head h]
  change (split? b.length (b ++ bs) >>= fun p => Token.pieces? major fuel (depth + 1) p.2 >>= fun q =>
    some (p.1 ++ q.1, q.2)) = _
  rw [split?_append]
  change (Token.pieces? major fuel (depth + 1) bs >>= fun q => some (b ++ q.1, q.2)) = _
  cases Token.pieces? major fuel (depth + 1) bs <;> rfl

end

/-- Pieces are read up to the last, whatever follows. -/
theorem read_encode {major depth fuel : Nat} {ps : List Piece} (hm : major < 7) (fits : ∀ p ∈ ps, p.Fits)
    (closes : Closes depth ps) (hfuel : ps.length ≤ fuel) (rest : List UInt8) :
    Token.pieces? major fuel depth (ps.flatMap (encode major) ++ rest) = some (ps.flatMap content, rest) := by
  induction ps generalizing depth fuel with
  | nil =>
    cases depth with
    | zero => simp [Token.pieces?]
    | succ depth => exact absurd closes id
  | cons p ps ih =>
    obtain ⟨hp, hps⟩ := List.forall_mem_cons.1 fits
    obtain ⟨fuel, rfl⟩ := Nat.exists_eq_add_of_le' (show 1 ≤ fuel from Nat.le_trans (by simp) hfuel)
    replace hfuel : ps.length ≤ fuel := by simpa using hfuel
    rw [List.flatMap_cons, List.flatMap_cons, List.append_assoc]
    cases depth with
    | zero => cases closes
    | succ depth =>
      cases p with
      | opening => exact (read_opening hm _ _ _).trans (ih hps closes hfuel)
      | stop => exact ih hps closes hfuel
      | part w b =>
        rw [read_part hm _ _ _ hp, ih hps closes hfuel]
        rfl

/-- What is read begins with a piece, and the rest is read after it. -/
theorem exists_first {major depth fuel : Nat} {bs b rest : List UInt8}
    (h : Token.pieces? major (fuel + 1) (depth + 1) bs = some (b, rest)) :
    ∃ (p : Piece) (depth' : Nat) (bs' b' : List UInt8), p.Fits ∧ bs = p.encode major ++ bs' ∧ b = p.content ++ b' ∧
      Token.pieces? major fuel depth' bs' = some (b', rest) ∧
      ∀ ps, Closes depth' ps → Closes (depth + 1) (p :: ps) := by
  rcases bs with _ | ⟨c, bs⟩
  · simp [Token.pieces?] at h
  rw [Token.pieces?] at h
  split at h
  · exact ⟨.stop, depth, bs, b, trivial, by rw [‹c = 0xff›]; rfl, rfl, h, fun _ => id⟩
  split at h
  · cases h
  have hdiv : c.toNat / 32 = major := not_not.1 ‹_›
  split at h
  · refine ⟨.opening, depth + 2, bs, b, trivial, ?_, rfl, h, fun _ => id⟩
    rw [eq_initial_byte hdiv ‹c.toNat % 32 = 31›]
    rfl
  · obtain ⟨⟨n, left⟩, hn, h⟩ := Option.bind_eq_some_iff.1 h
    obtain ⟨⟨piece, left⟩, hpiece, h⟩ := Option.bind_eq_some_iff.1 h
    obtain ⟨⟨more, left⟩, hmore, h⟩ := Option.bind_eq_some_iff.1 h
    obtain ⟨rfl, rfl⟩ := Prod.ext_iff.1 (Option.some.inj h)
    obtain ⟨w, hw, hinfo, rfl⟩ := argument?_eq_some hn
    obtain ⟨rfl, rfl⟩ := split?_eq_some hpiece
    refine ⟨.part w piece, depth + 1, _, more, hw, ?_, rfl, hmore, fun _ => id⟩
    rw [Width.cons_eq_head hdiv hinfo, encode, List.append_assoc]

/-- What is read is read of pieces. -/
theorem exists_of_read {major depth fuel : Nat} {bs b rest : List UInt8}
    (h : Token.pieces? major fuel depth bs = some (b, rest)) :
    ∃ ps, (∀ p ∈ ps, p.Fits) ∧ Closes depth ps ∧ bs = ps.flatMap (encode major) ++ rest ∧ ps.flatMap content = b := by
  induction fuel generalizing depth bs b with
  | zero =>
    cases depth with
    | zero =>
      simp only [Token.pieces?, Option.some.injEq, Prod.mk.injEq] at h
      obtain ⟨rfl, rfl⟩ := h
      exact ⟨[], by simp [Closes]⟩
    | succ depth => simp [Token.pieces?] at h
  | succ fuel ih =>
    cases depth with
    | zero =>
      simp only [Token.pieces?, Option.some.injEq, Prod.mk.injEq] at h
      obtain ⟨rfl, rfl⟩ := h
      exact ⟨[], by simp [Closes]⟩
    | succ depth =>
      obtain ⟨p, depth', bs', b', hp, rfl, rfl, hread, hcloses⟩ := exists_first h
      obtain ⟨ps, fits, closes, rfl, rfl⟩ := ih hread
      exact ⟨p :: ps, List.forall_mem_cons.2 ⟨hp, fits⟩, hcloses ps closes, by simp, rfl⟩

end Piece

/-- How a string is spelled. -/
inductive Strand
  | whole (w : Width) (b : List UInt8)
  | pieces (ps : List Piece)

namespace Strand

def encode (major : Nat) : Strand → List UInt8
  | whole w b => w.head major b.length ++ b
  | pieces ps => UInt8.ofNat (32 * major + 31) :: ps.flatMap (Piece.encode major)

def content : Strand → List UInt8
  | whole _ b => b
  | pieces ps => ps.flatMap Piece.content

/-- Its content as a text. -/
def text (s : Strand) : String := Text.ofBytes s.content

def Fits : Strand → Prop
  | whole w b => w.Fits b.length
  | pieces ps => (∀ p ∈ ps, p.Fits) ∧ Piece.Closes 1 ps

/-- Whether it is in one piece, with its length announced. -/
def Whole : Strand → Prop
  | whole _ _ => True
  | pieces _ => False

theorem encode_ne (major : Nat) (s : Strand) : s.encode major ≠ [] := by cases s <;> simp [encode, Width.head]

variable {s : Strand} {major : Nat}

/-- A string is told by its initial byte, and read from there on, whatever follows it. -/
theorem read_encode (hm : major < 7) (fits : s.Fits) (rest : List UInt8) :
    ∃ (c : UInt8) (bs : List UInt8), s.encode major ++ rest = c :: bs ∧ c.toNat / 32 = major ∧
      Token.string? major (c.toNat % 32) bs = some (s.content, rest) := by
  cases s with
  | whole w b =>
    have hinfo := w.info_lt fits
    obtain ⟨-, hdiv, hmod⟩ := Piece.initial_byte_string hm (show w.info b.length < 32 by omega)
    refine ⟨UInt8.ofNat (32 * major + w.info b.length), be w.size b.length ++ (b ++ rest), ?_, hdiv, ?_⟩
    · rw [encode, Width.head, List.cons_append, List.cons_append, List.append_assoc]
    · rw [hmod, Token.string?, if_neg (by omega), Width.argument?_head fits]
      exact split?_append b rest
  | pieces ps =>
    obtain ⟨-, hdiv, hmod⟩ := Piece.initial_byte_string hm (show 31 < 32 by decide)
    refine ⟨UInt8.ofNat (32 * major + 31), ps.flatMap (Piece.encode major) ++ rest, rfl, hdiv, ?_⟩
    rw [hmod, Token.string?, if_pos rfl]
    refine Piece.read_encode hm fits.1 fits.2 ?_ rest
    have := Piece.length_le_encode major ps
    rw [List.length_append]
    omega

theorem exists_of_read {c : UInt8} {bs b rest : List UInt8} (hdiv : c.toNat / 32 = major)
    (h : Token.string? major (c.toNat % 32) bs = some (b, rest)) :
    ∃ s : Strand, s.Fits ∧ s.content = b ∧ c :: bs = s.encode major ++ rest := by
  unfold Token.string? at h
  split at h
  · obtain ⟨ps, fits, closes, rfl, rfl⟩ := Piece.exists_of_read h
    refine ⟨.pieces ps, ⟨fits, closes⟩, rfl, ?_⟩
    rw [eq_initial_byte hdiv ‹c.toNat % 32 = 31›]
    rfl
  · obtain ⟨⟨n, left⟩, hn, hcontent⟩ := Option.bind_eq_some_iff.1 h
    obtain ⟨w, hw, hinfo, rfl⟩ := argument?_eq_some hn
    obtain ⟨rfl, rfl⟩ := split?_eq_some hcontent
    refine ⟨.whole w b, hw, rfl, ?_⟩
    rw [Width.cons_eq_head hdiv hinfo, encode, List.append_assoc]

end Strand

end TurnCodec.Cbor
