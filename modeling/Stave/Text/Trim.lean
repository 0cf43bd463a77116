/-!
# Blank edges

The characters with the Unicode property White_Space, and text without those at its two ends.

    a text whose first and last characters are not blank is its own trim  (trim_eq_self)
-/

namespace Stave.Text

/-- The 25 characters with the Unicode property White_Space. -/
def isSpace (c : Char) : Bool :=
  let n := c.toNat
  (9 ≤ n && n ≤ 13) || n == 0x20 || n == 0x85 || n == 0xA0 || n == 0x1680 ||
    (0x2000 ≤ n && n ≤ 0x200A) || n == 0x2028 || n == 0x2029 || n == 0x202F || n == 0x205F ||
    n == 0x3000

def trimLeft (cs : List Char) : List Char := cs.dropWhile isSpace

def trim (cs : List Char) : List Char := (trimLeft (trimLeft cs).reverse).reverse

/-! ## Lemmas -/

theorem trim_eq_self {cs : List Char} (hfirst : ∀ c ∈ cs.head?, isSpace c = false)
    (hlast : ∀ c ∈ cs.getLast?, isSpace c = false) : trim cs = cs := by
  have key : ∀ l : List Char, (∀ c ∈ l.head?, isSpace c = false) → trimLeft l = l := by
    intro l hl
    cases l with
    | nil => rfl
    | cons c l => simp [trimLeft, hl c (by simp)]
  rw [trim, key cs hfirst, key cs.reverse (by simpa [List.head?_reverse] using hlast),
    List.reverse_reverse]

end Stave.Text
