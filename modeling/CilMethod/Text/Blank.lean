/-!
# Blank characters

Lines of a listing are trimmed and cut at blank characters: those with the Unicode property
`White_Space`, which takes in the no-break spaces and the line separators and leaves out the
zero-width space and the byte order mark. `Char.isWhitespace` knows only four of them
(`isBlank_of_isWhitespace`).
-/

namespace CilMethod.Text

/-- The characters with the property `White_Space`, as closed ranges of code points. -/
def blankRanges : List (Nat × Nat) :=
  [(0x09, 0x0d), (0x20, 0x20), (0x85, 0x85), (0xa0, 0xa0), (0x1680, 0x1680), (0x2000, 0x200a),
    (0x2028, 0x2029), (0x202f, 0x202f), (0x205f, 0x205f), (0x3000, 0x3000)]

def isBlank (c : Char) : Bool :=
  blankRanges.any fun (lo, hi) => lo ≤ c.toNat && c.toNat ≤ hi

theorem isBlank_of_isWhitespace {c : Char} (h : c.isWhitespace) : isBlank c := by
  simp only [Char.isWhitespace, Bool.or_eq_true, decide_eq_true_eq] at h
  rcases h with ((rfl | rfl) | rfl) | rfl <;> decide

/-- Drops from the end what `p` holds of. -/
def dropEndWhile (p : Char → Bool) (cs : List Char) : List Char :=
  (cs.reverse.dropWhile p).reverse

/-- Drops the blanks at both ends. -/
def trim (cs : List Char) : List Char :=
  dropEndWhile isBlank (cs.dropWhile isBlank)

/-- Cuts at every character that `p` holds of; the cuts themselves are dropped, so there is always
one piece more than there are cuts. -/
def pieces (p : Char → Bool) (cs : List Char) : List (List Char) :=
  cs.foldr (fun c ps =>
    match ps with
    | [] => [[c]]
    | w :: ws => if p c then [] :: w :: ws else (c :: w) :: ws) [[]]

/-- The maximal runs of characters that are not blank. -/
def words (cs : List Char) : List (List Char) :=
  (pieces isBlank cs).filter fun w => !w.isEmpty

/-- The trimmed entries of a comma-separated list; empty entries are skipped. -/
def entries (cs : List Char) : List (List Char) :=
  ((pieces (· == ',') cs).map trim).filter fun w => !w.isEmpty

/-- The lines of a text. A line ends at a line feed, and a carriage return right before that line
feed belongs to the end; what follows the last line feed is a line only if it is not empty. -/
def lines (cs : List Char) : List (List Char) :=
  let ps := pieces (· == '\n') cs
  let ended := ps.dropLast.map fun l => if l.getLast? = some '\r' then l.dropLast else l
  match ps.getLast? with
  | some l => if l.isEmpty then ended else ended ++ [l]
  | none => ended

/-- What follows `lead` in a text that starts with it. -/
def after? : (lead cs : List Char) → Option (List Char)
  | [], cs => some cs
  | _ :: _, [] => none
  | l :: lead, c :: cs => if l = c then after? lead cs else none

end CilMethod.Text
