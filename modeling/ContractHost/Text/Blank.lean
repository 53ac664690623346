/-!
Blank characters: those with the Unicode property White_Space, and the removal of blanks from the
two ends of a text.
-/

namespace ContractHost.Text

/-- The character has the Unicode property White_Space. -/
def isBlank (c : Char) : Bool :=
  let n := c.toNat
  (9 ≤ n && n ≤ 13) || n == 0x20 || n == 0x85 || n == 0xA0 || n == 0x1680 ||
    (0x2000 ≤ n && n ≤ 0x200A) || n == 0x2028 || n == 0x2029 || n == 0x202F || n == 0x205F ||
    n == 0x3000

def trimBlanks (cs : List Char) : List Char :=
  ((cs.dropWhile isBlank).reverse.dropWhile isBlank).reverse

def trim (s : String) : String := String.ofList (trimBlanks s.toList)

theorem dropWhile_padded {pre cs : List Char} (blank : ∀ x ∈ pre, isBlank x = true)
    (first : cs.head?.all (!isBlank ·)) : (pre ++ cs).dropWhile isBlank = cs := by
  rw [List.dropWhile_append_of_pos blank]
  cases cs with
  | nil => rfl
  | cons c rest =>
      simp at first
      simp [first]

/-- Blanks around a text are dropped, and no more if its ends are not blank. -/
theorem trimBlanks_padded {pre cs post : List Char} (before : ∀ x ∈ pre, isBlank x = true)
    (after : ∀ x ∈ post, isBlank x = true) (filled : cs ≠ [])
    (first : cs.head?.all (!isBlank ·)) (last : cs.getLast?.all (!isBlank ·)) :
    trimBlanks (pre ++ cs ++ post) = cs := by
  have start : (cs ++ post).head?.all (!isBlank ·) := by
    cases cs with
    | nil => exact absurd rfl filled
    | cons c rest => exact first
  have stop : cs.reverse.head?.all (!isBlank ·) := by
    rw [List.head?_reverse]
    exact last
  have after' : ∀ x ∈ post.reverse, isBlank x = true :=
    fun x mem => after x (List.mem_reverse.1 mem)
  rw [trimBlanks, List.append_assoc, dropWhile_padded before start, List.reverse_append,
    dropWhile_padded after' stop, List.reverse_reverse]

end ContractHost.Text
