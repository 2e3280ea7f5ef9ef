/-!
# Columns

Text set to the left or to the right in a column of a given width, counted in characters. Text
that is wider than the column stays whole.
-/

namespace Comet.Text

def spaces (count : Nat) : String := String.ofList (List.replicate count ' ')

/-- Sets text to the left of a column. -/
def padRight (width : Nat) (text : String) : String := text ++ spaces (width - text.length)

/-- Sets text to the right of a column. -/
def padLeft (width : Nat) (text : String) : String := spaces (width - text.length) ++ text

@[simp] theorem length_spaces (count : Nat) : (spaces count).length = count := by simp [spaces]

theorem length_padRight (width : Nat) (text : String) :
    (padRight width text).length = max width text.length := by
  simp only [padRight, String.length_append, length_spaces]; omega

theorem length_padLeft (width : Nat) (text : String) :
    (padLeft width text).length = max width text.length := by
  simp only [padLeft, String.length_append, length_spaces]; omega

end Comet.Text
