import Comet.Image.Basic

/-!
# Object files

The stored form of an image: its entry address, then its words, each as two bytes with the high
byte first.
-/

namespace Comet

/-- A word as two bytes, the high one first. -/
def Word.toBytes (w : Word) : List UInt8 := [w.high, w.low]

namespace Image

/-- Reads bytes in pairs onto the words already read; fails if a byte is left over. -/
def wordsOnto (done : Array Word) : List UInt8 → Option (Array Word)
  | [] => some done
  | [_] => none
  | high :: low :: rest => wordsOnto (done.push (Word.ofBytes high low)) rest

def toBytes (image : Image) : List UInt8 :=
  image.entry.toBytes ++ image.words.toList.flatMap Word.toBytes

/-- The image of an object file. An odd number of bytes is reported before anything else. -/
def ofBytes? (bytes : List UInt8) : Except ImageError Image :=
  match bytes with
  | [] => .error .empty
  | [_] => .error .unaligned
  | high :: low :: rest =>
    match wordsOnto #[] rest with
    | none => .error .unaligned
    | some words => ofWords? words (Word.ofBytes high low)

theorem wordsOnto_flatMap_toBytes (done : Array Word) (words : List Word) :
    wordsOnto done (words.flatMap Word.toBytes) = some (done ++ words.toArray) := by
  induction words generalizing done with
  | nil => simp [wordsOnto]
  | cons w words ih =>
    simp only [List.flatMap_cons, Word.toBytes, List.cons_append, List.nil_append, wordsOnto]
    rw [ih]
    simp [Word.ofBytes_high_low]

/-- An image that fits is read back from its object file. -/
theorem ofBytes?_toBytes (image : Image) (h : image.size ≤ imageLimit) :
    ofBytes? image.toBytes = .ok image := by
  simp only [toBytes, Word.toBytes, List.cons_append, List.nil_append, ofBytes?]
  rw [wordsOnto_flatMap_toBytes]
  simp [ofWords?, Nat.not_lt.2 (show image.words.size ≤ imageLimit from h)]

end Image

end Comet
