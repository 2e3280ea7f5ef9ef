/-!
# Source positions

A span names a piece of source text by its byte offset and byte length, both counted in UTF-8.
-/

namespace Comet

/-- A piece of the source: `length` bytes from byte `offset` on. -/
structure Span where
  offset : Nat
  length : Nat
  deriving DecidableEq, Repr, Inhabited

namespace Span

/-- The span of nothing at the start of the source. -/
def empty : Span := ⟨0, 0⟩

def stop (s : Span) : Nat := s.offset + s.length

end Span

namespace Text

def byteLength (cs : List Char) : Nat := cs.foldl (fun total c => total + c.utf8Size) 0

theorem foldl_utf8Size (start : Nat) (cs : List Char) :
    cs.foldl (fun total c => total + c.utf8Size) start = start + byteLength cs := by
  unfold byteLength
  induction cs generalizing start with
  | nil => rfl
  | cons c cs ih =>
    simp only [List.foldl_cons]
    rw [ih (start + c.utf8Size), ih (0 + c.utf8Size)]
    omega

@[simp] theorem byteLength_nil : byteLength [] = 0 := rfl

@[simp] theorem byteLength_cons (c : Char) (cs : List Char) :
    byteLength (c :: cs) = c.utf8Size + byteLength cs := by
  rw [byteLength, List.foldl_cons, foldl_utf8Size, Nat.zero_add]

@[simp] theorem byteLength_append (cs ds : List Char) :
    byteLength (cs ++ ds) = byteLength cs + byteLength ds := by
  rw [byteLength, List.foldl_append, foldl_utf8Size]; rfl

end Text

end Comet
