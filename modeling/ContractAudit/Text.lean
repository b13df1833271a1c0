/-!
Readings of text that names, docblocks and labels share: letter case, blanks, pieces and lines.
Letter case is that of ASCII, blanks are the characters with the property `White_Space`, and all
cuts are made on the list of characters.
-/
namespace ContractAudit.Text

/-- The text with its ASCII capitals made small; class and method names are told apart by this. -/
def lower (s : String) : String := String.ofList (s.toList.map Char.toLower)

def same (s t : String) : Bool := lower s == lower t

theorem same_refl (s : String) : same s s = true := beq_self_eq_true _

theorem same_trans {s t u : String} (h : same s t = true) (h' : same t u = true) :
    same s u = true :=
  beq_iff_eq.mpr ((beq_iff_eq.mp h).trans (beq_iff_eq.mp h'))

theorem same_congr_left {s t : String} (h : same s t = true) (u : String) :
    same s u = same t u := by
  rw [same, same, beq_iff_eq.mp h]

theorem same_congr_right {s t : String} (h : same s t = true) (u : String) :
    same u s = same u t := by
  rw [same, same, beq_iff_eq.mp h]

def isBlank (c : Char) : Bool :=
  let n := c.toNat
  (9 ≤ n && n ≤ 13) || n == 0x20 || n == 0x85 || n == 0xA0 || n == 0x1680 ||
    (0x2000 ≤ n && n ≤ 0x200A) || n == 0x2028 || n == 0x2029 || n == 0x202F || n == 0x205F ||
    n == 0x3000

def isLetter (c : Char) : Bool := ('a' ≤ c && c ≤ 'z') || ('A' ≤ c && c ≤ 'Z')

def isDigit (c : Char) : Bool := '0' ≤ c && c ≤ '9'

def isIdentStart (c : Char) : Bool := isLetter c || c == '_'

def isIdentChar (c : Char) : Bool := isLetter c || isDigit c || c == '_'

def trimStartChars (p : Char → Bool) (cs : List Char) : List Char := cs.dropWhile p

def trimEndChars (p : Char → Bool) (cs : List Char) : List Char :=
  (cs.reverse.dropWhile p).reverse

def trimChars (p : Char → Bool) (cs : List Char) : List Char :=
  trimEndChars p (trimStartChars p cs)

def trim (s : String) : String := String.ofList (trimChars isBlank s.toList)

def dropLeading (c : Char) (s : String) : String := String.ofList (s.toList.dropWhile (· == c))

/-- The pieces between the occurrences of `sep`, of which there is always one. -/
def splitChars (sep : Char) : List Char → List (List Char)
  | [] => [[]]
  | c :: cs =>
    if c = sep then [] :: splitChars sep cs
    else match splitChars sep cs with
      | [] => [[c]]
      | w :: ws => (c :: w) :: ws

def splitAtChar (sep : Char) (s : String) : List String :=
  (splitChars sep s.toList).map String.ofList

def splitOnce (sep : Char) (s : String) : Option (String × String) :=
  match s.toList.span (· != sep) with
  | (before, _ :: after) => some (String.ofList before, String.ofList after)
  | (_, []) => none

def indexOf? (word : List Char) : List Char → Option Nat
  | [] => if word.isEmpty then some 0 else none
  | c :: cs => if word.isPrefixOf (c :: cs) then some 0 else (indexOf? word cs).map (· + 1)

def fullLines : List Char → List (List Char)
  | [] => []
  | c :: cs =>
    if c = '\n' then [c] :: fullLines cs
    else match fullLines cs with
      | [] => [[c]]
      | l :: ls => (c :: l) :: ls

/-- A line without its newline, and without the carriage return before that. -/
def chomp (line : List Char) : List Char :=
  match line.reverse with
  | '\n' :: '\r' :: r => r.reverse
  | '\n' :: r => r.reverse
  | _ => line

def lines (cs : List Char) : List (List Char) := (fullLines cs).map chomp

/-- The first run of characters that are not blank; empty if there is none. -/
def firstWord (cs : List Char) : List Char := (cs.dropWhile isBlank).takeWhile (!isBlank ·)

end ContractAudit.Text
