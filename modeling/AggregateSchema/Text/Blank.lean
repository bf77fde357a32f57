/-! Blank characters (the Unicode property White_Space) and trimming. -/
namespace AggregateSchema.Text

def isBlankChar (c : Char) : Bool :=
  let n := c.toNat
  (0x9 ≤ n && n ≤ 0xD) || n == 0x20 || n == 0x85 || n == 0xA0 || n == 0x1680 ||
    (0x2000 ≤ n && n ≤ 0x200A) || n == 0x2028 || n == 0x2029 || n == 0x202F || n == 0x205F ||
    n == 0x3000

/-- Whether a text holds nothing but blank characters. -/
def isBlank (s : String) : Bool := s.toList.all isBlankChar

def trimChars (cs : List Char) : List Char :=
  ((cs.dropWhile isBlankChar).reverse.dropWhile isBlankChar).reverse

/-- The text without the blank characters at either end. -/
def trim (s : String) : String := String.ofList (trimChars s.toList)

theorem dropWhile_eq_nil_iff_all (p : Char → Bool) (cs : List Char) :
    cs.dropWhile p = [] ↔ cs.all p = true := by
  induction cs with
  | nil => simp
  | cons c cs ih => by_cases h : p c <;> simp_all

theorem trimChars_eq_nil_iff (cs : List Char) :
    trimChars cs = [] ↔ cs.all isBlankChar = true := by
  rw [trimChars, List.reverse_eq_nil_iff, dropWhile_eq_nil_iff_all, List.all_reverse,
    ← dropWhile_eq_nil_iff_all isBlankChar cs]
  constructor
  · intro h
    cases hd : cs.dropWhile isBlankChar with
    | nil => rfl
    | cons c r =>
      have hc : isBlankChar c = false := by
        have := List.head?_dropWhile_not isBlankChar cs
        simpa [hd] using this
      simp [hd, hc] at h
  · intro h
    simp [h]

end AggregateSchema.Text
