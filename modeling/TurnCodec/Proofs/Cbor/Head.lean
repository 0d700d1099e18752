import Mathlib.Data.List.Induction
import Mathlib.Tactic.Ring
import TurnCodec.Cbor.Token
/-! Heads at any width: an argument stands in the initial byte or in one, two, four or
eight bytes after it, and is read back with whatever follows. The writer takes the
least width. -/

namespace TurnCodec.Cbor

theorem ofBe_append (as bs : List UInt8) : ofBe (as ++ bs) = ofBe as * 256 ^ bs.length + ofBe bs := by
  induction bs using List.reverseRecOn with
  | nil => simp [ofBe]
  | append_singleton bs b ih =>
    rw [← List.append_assoc]
    simp only [ofBe, List.foldl_append, List.foldl_cons, List.foldl_nil, List.length_append, List.length_cons,
      List.length_nil] at ih ⊢
    rw [ih, Nat.zero_add, pow_succ]
    ring

theorem ofBe_be (k n : Nat) : ofBe (be k n) = n % 256 ^ k := by
  induction k with
  | zero => simp [be, ofBe, Nat.mod_one]
  | succ k ih =>
    have hbyte : n >>> (8 * k) = n / 256 ^ k := by
      rw [Nat.shiftRight_eq_div_pow, pow_mul]
      rfl
    have hcons : ofBe (be (k + 1) n) = n / 256 ^ k % 256 * 256 ^ k + ofBe (be k n) := by
      rw [be, ← List.singleton_append, ofBe_append, length_be, hbyte]
      simp [ofBe]
    rw [hcons, ih, Nat.mod_pow_succ]
    ring

theorem ofBe_cons (b : UInt8) (bs : List UInt8) : ofBe (b :: bs) = b.toNat * 256 ^ bs.length + ofBe bs := by
  rw [← List.singleton_append, ofBe_append]
  simp [ofBe]

theorem ofBe_lt (bs : List UInt8) : ofBe bs < 256 ^ bs.length := by
  induction bs with
  | nil => simp [ofBe]
  | cons b bs ih =>
    have hb : b.toNat + 1 ≤ 256 := b.toNat_lt
    calc
      ofBe (b :: bs) < (b.toNat + 1) * 256 ^ bs.length := by
        rw [ofBe_cons, Nat.add_mul]
        omega
      _ ≤ 256 * 256 ^ bs.length := Nat.mul_le_mul_right _ hb
      _ = 256 ^ (b :: bs).length := (Nat.pow_succ'.symm)

theorem ofBe_injective {as bs : List UInt8} (hlength : as.length = bs.length) (h : ofBe as = ofBe bs) : as = bs := by
  induction as generalizing bs with
  | nil => exact (List.length_eq_zero_iff.1 hlength.symm).symm
  | cons a as ih =>
    obtain ⟨b, bs, rfl⟩ := List.exists_cons_of_length_eq_add_one hlength.symm
    have hrest : as.length = bs.length := by simpa using hlength
    have ha := ofBe_lt as
    have hb := ofBe_lt bs
    rw [ofBe_cons, ofBe_cons, hrest] at h
    rw [hrest] at ha
    have quotient (n m : Nat) (hm : m < 256 ^ bs.length) : (n * 256 ^ bs.length + m) / 256 ^ bs.length = n := by
      rw [Nat.add_comm, Nat.add_mul_div_right _ _ (Nat.zero_lt_of_lt hm), Nat.div_eq_of_lt hm, Nat.zero_add]
    have hfirst : a.toNat = b.toNat := by rw [← quotient a.toNat _ ha, h, quotient _ _ hb]
    rw [hfirst] at h
    rw [UInt8.toNat_inj.1 hfirst, ih hrest (by omega)]

/-- Bytes are those of the number that they hold. -/
theorem be_ofBe (bs : List UInt8) : be bs.length (ofBe bs) = bs := by
  apply ofBe_injective (length_be _ _)
  rw [ofBe_be, Nat.mod_eq_of_lt (ofBe_lt bs)]

theorem split?_eq_some {n : Nat} {bs as rest : List UInt8} (h : split? n bs = some (as, rest)) :
    as.length = n ∧ bs = as ++ rest := by
  simp only [split?, Option.ite_none_right_eq_some, Option.some.injEq, Prod.mk.injEq] at h
  obtain ⟨hlength, rfl, rfl⟩ := h
  exact ⟨hlength, (List.take_append_drop n bs).symm⟩

/-- Where the argument of a head stands. -/
inductive Width
  | inline
  | one
  | two
  | four
  | eight
deriving DecidableEq

namespace Width

/-- How many bytes of argument follow the initial byte. -/
def size : Width → Nat
  | inline => 0
  | one => 1
  | two => 2
  | four => 4
  | eight => 8

/-- The low bits of the initial byte. -/
def info : Width → Nat → Nat
  | inline, n => n
  | one, _ => 24
  | two, _ => 25
  | four, _ => 26
  | eight, _ => 27

/-- Whether the argument can stand there. -/
def Fits : Width → Nat → Prop
  | inline, n => n < 24
  | w, n => n < 256 ^ w.size

def head (w : Width) (major n : Nat) : List UInt8 := UInt8.ofNat (32 * major + w.info n) :: be w.size n

theorem info_lt {w : Width} {n : Nat} (h : w.Fits n) : w.info n < 28 := by
  cases w <;> simp only [Fits, info] at * <;> omega

theorem argument?_head {w : Width} {n : Nat} (h : w.Fits n) (rest : List UInt8) :
    argument? (w.info n) (be w.size n ++ rest) = some (n, rest) := by
  have wide (k : Nat) (hk : w.size = k) (hn : n < 256 ^ k) :
      (split? k (be k n ++ rest)).map (fun p => (ofBe p.1, p.2)) = some (n, rest) := by
    have hsplit := split?_append (be k n) rest
    rw [length_be] at hsplit
    rw [hsplit]
    simp [ofBe_be, Nat.mod_eq_of_lt hn]
  cases w with
  | inline => exact if_pos h
  | one => exact wide 1 rfl h
  | two => exact wide 2 rfl h
  | four => exact wide 4 rfl h
  | eight => exact wide 8 rfl h

/-- The least width. -/
def least (n : Nat) : Width :=
  if n < 24 then inline else if n < 0x100 then one else if n < 0x10000 then two else if n < 0x100000000 then four else eight

theorem fits_least {n : Nat} (h : n < 2 ^ 64) : (least n).Fits n := by
  unfold least
  split
  · assumption
  · repeat' split
    all_goals simp only [Fits, size]; omega

theorem head_least (major n : Nat) : (least n).head major n = Cbor.head major n := by
  unfold least Cbor.head
  repeat' split
  all_goals rfl

end Width

/-- The initial byte holds the major type and the low bits. -/
theorem initial_byte {major info : Nat} (hm : major < 8) (hi : info < 32) :
    (UInt8.ofNat (32 * major + info)).toNat / 32 = major ∧ (UInt8.ofNat (32 * major + info)).toNat % 32 = info := by
  rw [UInt8.toNat_ofNat_of_lt' (by show _ < 256; omega)]
  omega

/-- An argument stands at one of the widths. -/
theorem argument?_eq_some {info n : Nat} {bs rest : List UInt8} (h : argument? info bs = some (n, rest)) :
    ∃ w : Width, w.Fits n ∧ w.info n = info ∧ bs = be w.size n ++ rest := by
  have wide (w : Width) (hsize : 1 <<< (info - 24) = w.size) (hinfo : ∀ n, w.info n = info)
      (hfits : ∀ n, n < 256 ^ w.size → w.Fits n)
      (hsplit : (split? (1 <<< (info - 24)) bs).map (fun p => (ofBe p.1, p.2)) = some (n, rest)) :
      ∃ w : Width, w.Fits n ∧ w.info n = info ∧ bs = be w.size n ++ rest := by
    obtain ⟨⟨as, left⟩, has, heq⟩ := Option.map_eq_some_iff.1 hsplit
    obtain ⟨rfl, rfl⟩ := Prod.ext_iff.1 heq
    obtain ⟨hlength, rfl⟩ := split?_eq_some has
    rw [hsize] at hlength
    refine ⟨w, hfits _ (hlength ▸ ofBe_lt as), hinfo _, ?_⟩
    rw [← hlength, be_ofBe]
  unfold argument? at h
  split at h
  · obtain ⟨rfl, rfl⟩ := Prod.ext_iff.1 (Option.some.inj h)
    exact ⟨.inline, ‹_›, rfl, rfl⟩
  split at h
  · have hinfo : info = 24 ∨ info = 25 ∨ info = 26 ∨ info = 27 := by omega
    rcases hinfo with rfl | rfl | rfl | rfl
    · exact wide .one rfl (fun _ => rfl) (fun _ hn => hn) h
    · exact wide .two rfl (fun _ => rfl) (fun _ hn => hn) h
    · exact wide .four rfl (fun _ => rfl) (fun _ hn => hn) h
    · exact wide .eight rfl (fun _ => rfl) (fun _ hn => hn) h
  · cases h

theorem eq_initial_byte {b : UInt8} {major info : Nat} (hdiv : b.toNat / 32 = major) (hmod : b.toNat % 32 = info) :
    b = UInt8.ofNat (32 * major + info) := by
  rw [← hdiv, ← hmod, Nat.div_add_mod, UInt8.ofNat_toNat]

theorem Width.cons_eq_head {w : Width} {major n : Nat} {b : UInt8} (hdiv : b.toNat / 32 = major)
    (hmod : w.info n = b.toNat % 32) (rest : List UInt8) : b :: (be w.size n ++ rest) = w.head major n ++ rest := by
  rw [head, List.cons_append, ← eq_initial_byte hdiv hmod.symm]

end TurnCodec.Cbor
