import TurnCodec.Proofs.Bare
/-! What the writer gives for a tree, as tokens with their bytes. A byte string with a subtype has a
tag before its token. A discarded value has no token, and leaves its place open. -/

namespace TurnCodec

namespace Cbor

/-- Bytes in one piece, with a head of the least width. -/
def Strand.plain (b : List UInt8) : Strand := .whole (.least b.length) b

theorem Strand.encode_plain (major : Nat) (b : List UInt8) : (plain b).encode major = head major b.length ++ b := by
  rw [plain, encode, Width.head_least]

/-- Where the number of a tag stands: always after the initial byte. -/
def Width.ofTag (n : Nat) : Width :=
  if n < 0x100 then one else if n < 0x10000 then two else if n < 0x100000000 then four else eight

theorem Width.fits_ofTag {n : Nat} (h : n < 2 ^ 64) : (ofTag n).Fits n := by
  unfold ofTag
  repeat' split
  all_goals simp only [Fits, size]; omega

def Spelling.ofSubtype : Option UInt64 → List Spelling
  | none => []
  | some n => [.tag (.ofTag n.toNat) n.toNat]

theorem spelled_ofSubtype (subtype : Option UInt64) : spelled (Spelling.ofSubtype subtype) = tagBytes subtype := by
  rcases subtype with _ | n
  · rfl
  rw [Spelling.ofSubtype, spelled, List.flatMap_singleton, Spelling.tag, tagBytes, tagHead, Width.ofTag]
  repeat' split
  all_goals rfl

end Cbor

namespace Tree

open Cbor

theorem itemsToCbor_eq (items : List Tree) : itemsToCbor items = items.flatMap toCbor := by
  induction items with
  | nil => rfl
  | cons t items ih => rw [itemsToCbor, ih, List.flatMap_cons]

theorem fieldsToCbor_eq (fields : List (String × Tree)) : fieldsToCbor fields =
    fields.flatMap fun f => Cbor.head 3 f.1.length ++ Text.bytes f.1 ++ f.2.toCbor := by
  induction fields with
  | nil => rfl
  | cons f fields ih => rw [fieldsToCbor, ih, List.flatMap_cons]

mutual

def spellings : Tree → List Spelling
  | null => [.null]
  | bool b => [.bool b]
  | int n => (Item.ofInteger n).spellings
  | float x => (Item.ofFloat x).spellings
  | text s => [.text (.plain (Text.bytes s))]
  | bytes b subtype => Spelling.ofSubtype subtype ++ [.byteString (.plain b)]
  | array items => .array (some (.least items.length)) items.length :: itemSpellings items
  | object fields => .map (some (.least fields.length)) fields.length :: fieldSpellings fields
  | discarded => []

def itemSpellings : List Tree → List Spelling
  | [] => []
  | t :: items => spellings t ++ itemSpellings items

def fieldSpellings : List (String × Tree) → List Spelling
  | [] => []
  | (key, t) :: fields => .text (.plain (Text.bytes key)) :: (spellings t ++ fieldSpellings fields)

end

theorem itemSpellings_eq (items : List Tree) : itemSpellings items = items.flatMap spellings := by
  induction items with
  | nil => rfl
  | cons t items ih => rw [itemSpellings, ih, List.flatMap_cons]

theorem fieldSpellings_eq (fields : List (String × Tree)) :
    fieldSpellings fields = fields.flatMap fun f => .text (.plain (Text.bytes f.1)) :: f.2.spellings := by
  induction fields with
  | nil => rfl
  | cons f fields ih => rw [fieldSpellings, ih, List.flatMap_cons, List.cons_append]

theorem bytes_text (s : String) : (Spelling.text (.plain (Text.bytes s))).bytes = Cbor.head 3 s.length ++ Text.bytes s := by
  rw [Spelling.text, Strand.encode_plain, Text.length_bytes]

theorem spelled_spellings (t : Tree) : spelled t.spellings = t.toCbor := by
  induction t with
  | null => rfl
  | bool b => cases b <;> rfl
  | int n => exact Item.encode_ofInteger n
  | float x => exact Item.encode_ofFloat x
  | text s => rw [spellings, spelled, List.flatMap_singleton, bytes_text, toCbor]
  | bytes b subtype =>
    rw [spellings, spelled_append, spelled_ofSubtype, spelled, List.flatMap_singleton, Spelling.byteString,
      Strand.encode_plain, toCbor]
  | array items ih =>
    have each : ∀ t ∈ items, t.spellings.flatMap (·.bytes) = t.toCbor := ih
    rw [spellings, itemSpellings_eq, spelled, List.flatMap_cons, List.flatMap_assoc, List.flatMap_congr each, toCbor,
      itemsToCbor_eq]
    simp [Spelling.array, Width.head_least]
  | object fields ih =>
    have each : ∀ f ∈ fields, (Spelling.text (.plain (Text.bytes f.1)) :: f.2.spellings).flatMap (·.bytes) =
        Cbor.head 3 f.1.length ++ Text.bytes f.1 ++ f.2.toCbor := by
      intro f hf
      rw [List.flatMap_cons, bytes_text, ← ih f hf, spelled]
    rw [spellings, fieldSpellings_eq, spelled, List.flatMap_cons, List.flatMap_assoc, List.flatMap_congr each, toCbor,
      fieldsToCbor_eq]
    simp [Spelling.map, Width.head_least]
  | discarded => rfl

end Tree

end TurnCodec
