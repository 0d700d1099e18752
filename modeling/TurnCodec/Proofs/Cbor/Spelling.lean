import TurnCodec.Cbor.Reader
import TurnCodec.Proofs.Cbor.Strand
import TurnCodec.Proofs.Outcome
/-! Tokens with bytes that spell them. Reading spelled tokens is feeding the tokens to
the stack of open containers. -/

namespace TurnCodec.Cbor

structure Spelling where
  token : Token
  bytes : List UInt8

/-- The bytes are read as the token, whatever follows them. -/
def Spelling.Sound (s : Spelling) : Prop := ∀ rest, Token.read? (s.bytes ++ rest) = some (s.token, rest)

namespace Spelling

def natural (w : Width) (n : UInt64) : Spelling := ⟨.scalar (.int (.ofUInt64 n)), w.head 0 n.toNat⟩

def negative (w : Width) (n : UInt64) : Spelling := ⟨.scalar (.int (.complement n)), w.head 1 n.toNat⟩

def byteString (s : Strand) : Spelling := ⟨.scalar (.bytes s.content none), s.encode 2⟩

def text (s : Strand) : Spelling := ⟨.scalar (.text s.text), s.encode 3⟩

/-- The opening of an array of `n` items, announced where there is a width. -/
def array (w : Option Width) (n : Nat) : Spelling :=
  match w with
  | some w => ⟨.array (announced n), w.head 4 n⟩
  | none => ⟨.array none, [0x9f]⟩

def map (w : Option Width) (n : Nat) : Spelling :=
  match w with
  | some w => ⟨.map (announced n), w.head 5 n⟩
  | none => ⟨.map none, [0xbf]⟩

def stop : Spelling := ⟨.stop, [0xff]⟩

def tag (w : Width) (n : Nat) : Spelling := ⟨.tag, w.head 6 n⟩

def bool (b : Bool) : Spelling := ⟨.scalar (.bool b), [if b then 0xf5 else 0xf4]⟩

def null : Spelling := ⟨.scalar .null, [0xf6]⟩

def half (bits : UInt16) : Spelling := ⟨.scalar (.float (.ofBits16 bits)), 0xf9 :: be 2 bits.toNat⟩

def single (bits : UInt32) : Spelling := ⟨.scalar (.float (.ofBits32 bits)), 0xfa :: be 4 bits.toNat⟩

def double (x : Binary64) : Spelling := ⟨.scalar (.float x), 0xfb :: be 8 x.bits.toNat⟩

variable {w : Width} {n : Nat}

/-- A head by its initial byte, which tells the major type and where the argument is. -/
theorem head_cons (major : Nat) (hm : major < 8) (h : w.Fits n) (rest : List UInt8) :
    ∃ b : UInt8, w.head major n ++ rest = b :: (be w.size n ++ rest) ∧ b.toNat / 32 = major ∧ b.toNat % 32 = w.info n :=
  ⟨_, rfl, initial_byte hm (by have := w.info_lt h; omega)⟩

/-- A head whose argument is all that there is to its token. -/
theorem sound_head {major : Nat} (token : Nat → Token) (hm : major < 8) (h : w.Fits n)
    (hread : ∀ b bs, b.toNat / 32 = major →
      Token.read? (b :: bs) = (argument? (b.toNat % 32) bs).map fun p => (token p.1, p.2)) :
    (⟨token n, w.head major n⟩ : Spelling).Sound := by
  intro rest
  obtain ⟨b, hb, hdiv, hmod⟩ := head_cons major hm h rest
  rw [hb, hread b _ hdiv, hmod, Width.argument?_head h]
  rfl

theorem sound_natural {n : UInt64} (h : w.Fits n.toNat) : (natural w n).Sound := by
  have hsound := sound_head (fun m => .scalar (.int (.ofUInt64 (UInt64.ofNat m)))) (by decide) h
    fun b bs (hb : b.toNat / 32 = 0) => by simp only [Token.read?, hb]
  rwa [UInt64.ofNat_toNat] at hsound

theorem sound_negative {n : UInt64} (h : w.Fits n.toNat) : (negative w n).Sound := by
  have hsound := sound_head (fun m => .scalar (.int (.complement (UInt64.ofNat m)))) (by decide) h
    fun b bs (hb : b.toNat / 32 = 1) => by simp only [Token.read?, hb]
  rwa [UInt64.ofNat_toNat] at hsound

theorem sound_tag (h : w.Fits n) : (tag w n).Sound :=
  sound_head (fun _ => .tag) (by decide) h fun b bs (hb : b.toNat / 32 = 6) => by simp only [Token.read?, hb]

theorem sound_byteString {s : Strand} (h : s.Fits) : (byteString s).Sound := by
  intro rest
  obtain ⟨c, bs, hbytes, hdiv, hread⟩ := Strand.read_encode (show 2 < 7 by decide) h rest
  rw [byteString, hbytes]
  simp only [Token.read?, hdiv, hread, Option.map_some]

theorem sound_text {s : Strand} (h : s.Fits) : (text s).Sound := by
  intro rest
  obtain ⟨c, bs, hbytes, hdiv, hread⟩ := Strand.read_encode (show 3 < 7 by decide) h rest
  rw [text, hbytes]
  simp only [Token.read?, hdiv, hread, Option.map_some, Strand.text]

theorem sound_array {w : Option Width} (h : ∀ v ∈ w, v.Fits n) : (array w n).Sound := by
  intro rest
  cases w with
  | none => rfl
  | some w =>
    obtain ⟨c, hc, hdiv, hmod⟩ := head_cons 4 (by decide) (h w rfl) rest
    rw [array, hc, Token.read?]
    have hinfo := w.info_lt (h w rfl)
    have : w.info n ≠ 31 := by omega
    simp [hdiv, hmod, Token.count?, Width.argument?_head (h w rfl), this]

theorem sound_map {w : Option Width} (h : ∀ v ∈ w, v.Fits n) : (map w n).Sound := by
  intro rest
  cases w with
  | none => rfl
  | some w =>
    obtain ⟨c, hc, hdiv, hmod⟩ := head_cons 5 (by decide) (h w rfl) rest
    rw [map, hc, Token.read?]
    have hinfo := w.info_lt (h w rfl)
    have : w.info n ≠ 31 := by omega
    simp [hdiv, hmod, Token.count?, Width.argument?_head (h w rfl), this]

theorem token_array (w : Option Width) (n : Nat) : (array w n).token = .array (w.bind fun _ => announced n) := by
  cases w <;> rfl

theorem token_map (w : Option Width) (n : Nat) : (map w n).token = .map (w.bind fun _ => announced n) := by
  cases w <;> rfl

/-- A count that is not the greatest is announced as it is. -/
theorem bind_announced (w : Option Width) {n : Nat} (h : n < 0xffffffffffffffff) :
    (w.bind fun _ => announced n) = w.map fun _ => n := by
  have hn : announced n = some n := if_neg (by omega)
  cases w with
  | none => rfl
  | some w => exact hn

theorem sound_stop : stop.Sound := fun _ => rfl

theorem sound_bool (b : Bool) : (bool b).Sound := by
  cases b <;> exact fun _ => rfl

theorem sound_null : null.Sound := fun _ => rfl

/-- A float in so many bytes after its initial one. -/
theorem sound_float {k : Nat} {b : UInt8} {bits : Nat} {x : Nat → Binary64} (hbits : bits < 256 ^ k)
    (hread : ∀ bs, Token.read? (b :: bs) = (split? k bs).map fun p => (.scalar (.float (x (ofBe p.1))), p.2)) :
    (⟨.scalar (.float (x bits)), b :: be k bits⟩ : Spelling).Sound := by
  intro rest
  have hsplit := split?_append (be k bits) rest
  rw [length_be] at hsplit
  rw [List.cons_append, hread, hsplit, Option.map_some, ofBe_be, Nat.mod_eq_of_lt hbits]

theorem sound_half (bits : UInt16) : (half bits).Sound := by
  have hsound := sound_float (x := fun n => .ofBits16 (UInt16.ofNat n)) (k := 2) (b := 0xf9) bits.toNat_lt fun _ => rfl
  rwa [UInt16.ofNat_toNat] at hsound

theorem sound_single (bits : UInt32) : (single bits).Sound := by
  have hsound := sound_float (x := fun n => .ofBits32 (UInt32.ofNat n)) (k := 4) (b := 0xfa) bits.toNat_lt fun _ => rfl
  rwa [UInt32.ofNat_toNat] at hsound

theorem sound_double (x : Binary64) : (double x).Sound := by
  have hsound := sound_float (x := fun n => ⟨UInt64.ofNat n⟩) (k := 8) (b := 0xfb) x.bits.toNat_lt fun _ => rfl
  rwa [UInt64.ofNat_toNat] at hsound

end Spelling

/-- The bytes of tokens in a row. -/
def spelled (ss : List Spelling) : List UInt8 := ss.flatMap (·.bytes)

theorem spelled_cons (s : Spelling) (ss : List Spelling) : spelled (s :: ss) = s.bytes ++ spelled ss :=
  List.flatMap_cons

theorem spelled_append (as bs : List Spelling) : spelled (as ++ bs) = spelled as ++ spelled bs := List.flatMap_append

/-- Tokens in a row put into the open containers; nothing may come after a whole body. -/
def feed (lim : Limits) : Progress → List Token → Except Rejection Progress
  | p, [] => .ok p
  | .complete _, _ :: _ => .error .malformed
  | .within frames, token :: tokens => step lim frames token >>= fun p => feed lim p tokens

/-- Reading on from where feeding has led to. -/
def proceed (lim : Limits) (fuel : Nat) (rest : List UInt8) : Except Rejection Progress → Except Rejection Tree
  | .error e => .error e
  | .ok (.complete t) => if rest.isEmpty then .ok t else .error .malformed
  | .ok (.within frames) => resume lim fuel frames rest

variable {lim : Limits}

@[simp] theorem feed_nil (p : Progress) : feed lim p [] = .ok p := by cases p <;> rfl

theorem feed_within (frames : List Frame) (token : Token) (tokens : List Token) :
    feed lim (.within frames) (token :: tokens) = step lim frames token >>= fun p => feed lim p tokens := rfl

theorem feed_append (p : Progress) (as bs : List Token) :
    feed lim p (as ++ bs) = feed lim p as >>= fun p => feed lim p bs := by
  induction as generalizing p with
  | nil => simp
  | cons a as ih =>
    cases p with
    | complete t => rfl
    | within frames =>
      rw [List.cons_append, feed_within, feed_within]
      cases step lim frames a with
      | error e => rfl
      | ok p => exact ih p

theorem resume_succ (fuel : Nat) (frames : List Frame) {bs rest : List UInt8} {token : Token}
    (h : Token.read? bs = some (token, rest)) :
    resume lim (fuel + 1) frames bs = proceed lim fuel rest (step lim frames token) := by
  simp only [resume, h]
  rcases step lim frames token with e | (t | frames) <;> rfl

theorem Spelling.Sound.bytes_ne {s : Spelling} (h : s.Sound) : s.bytes ≠ [] := by
  intro hs
  have hread := h []
  rw [hs] at hread
  cases hread

/-- Reading the bytes of tokens is feeding the tokens, and reading on with the rest. -/
theorem resume_spelled {ss : List Spelling} (h : ∀ s ∈ ss, s.Sound) (fuel : Nat) (frames : List Frame)
    (rest : List UInt8) : resume lim (ss.length + fuel) frames (spelled ss ++ rest) =
      proceed lim fuel rest (feed lim (.within frames) (ss.map (·.token))) := by
  induction ss generalizing frames with
  | nil => simp [spelled, proceed]
  | cons s ss ih =>
    obtain ⟨hs, hss⟩ := List.forall_mem_cons.1 h
    have hread : Token.read? (spelled (s :: ss) ++ rest) = some (s.token, spelled ss ++ rest) := by
      rw [spelled_cons, List.append_assoc]
      exact hs _
    rw [List.length_cons, Nat.add_right_comm, resume_succ _ _ hread, List.map_cons, feed_within]
    rcases step lim frames s.token with e | (t | frames)
    · rfl
    · cases ss with
      | nil => rfl
      | cons u ss =>
        have hu := (hss u List.mem_cons_self).bytes_ne
        simp [proceed, feed, spelled, hu]
    · exact ih hss frames

end TurnCodec.Cbor
