/-! Patterns for file names: a star for any text, a question mark for any character, and characters
in brackets for a choice. -/

namespace ActorOwnership
set_option autoImplicit false

/-- One element of a pattern. -/
inductive PatternItem where
  | anyText
  | anyChar
  | char (c : Char)
  /-- Single characters count as ranges of one; without ranges nothing matches. -/
  | choice (negated : Bool) (ranges : List (Char × Char))
  deriving DecidableEq, Repr, Inhabited

namespace PatternItem

/-! ### Choices -/

/-- Splits the inside of brackets at the hyphens that make ranges. A hyphen that stands too near to
the one before, or to the start, counts as itself; `wait` says how many characters must pass. -/
def chunks : Nat → List Char → List (List Char)
  | _, [] => [[]]
  | wait, c :: cs =>
    if c = '-' && wait = 0 then [] :: chunks 2 cs
    else match chunks (wait - 1) cs with
      | first :: rest => (c :: first) :: rest
      | [] => [[c]]

/-- A range that is still open at the end is no range. -/
def closeLast : List (List Char) → List (List Char)
  | [] => []
  | [first, []] => [first ++ ['-']]
  | first :: rest => first :: closeLast rest

/-- Joins chunks whose range would run backwards, without the ends of that range. -/
def joinEmpty : List (List Char) → List (List Char)
  | [] => []
  | first :: rest =>
    match joinEmpty rest, first.getLast? with
    | (c :: second) :: others, some last =>
      if c < last then (first.dropLast ++ second) :: others else first :: (c :: second) :: others
    | others, _ => first :: others

/-- The ranges between chunks, and every character by itself. -/
def rangesOf : List (List Char) → List (Char × Char)
  | [] => []
  | first :: rest =>
    (first.map fun c => (c, c)) ++
      (match first.getLast?, rest.head?.bind List.head? with
        | some a, some b => [(a, b)]
        | _, _ => []) ++
      rangesOf rest

/-- The choice for the inside of brackets. A leading `!` negates; a negated choice of nothing is any
character. -/
def ofBrackets (inside : List Char) : PatternItem :=
  let cs := joinEmpty (closeLast (chunks (if inside.head? = some '!' then 2 else 1) inside))
  match cs with
  | [['!']] => .anyChar
  | ('!' :: first) :: rest => .choice true (rangesOf (first :: rest))
  | cs => .choice false (rangesOf cs)

/-- The inside of brackets and what follows them, if they are closed. The first character, after a
`!` too, does not close them. -/
def brackets? (cs : List Char) : Option (List Char × List Char) :=
  let lead := if cs.head? = some '!' then ['!'] else []
  let body := cs.drop lead.length
  let lead := if body.head? = some ']' then lead ++ [']'] else lead
  let body := cs.drop lead.length
  let inside := body.takeWhile (· ≠ ']')
  match body.drop inside.length with
  | [] => none
  | _ :: rest => some (lead ++ inside, rest)

def parseWithin : Nat → List Char → List PatternItem
  | 0, _ => []
  | _, [] => []
  | fuel + 1, c :: cs =>
    if c = '*' then .anyText :: parseWithin fuel cs
    else if c = '?' then .anyChar :: parseWithin fuel cs
    else if c = '[' then
      match brackets? cs with
      | some (inside, rest) => ofBrackets inside :: parseWithin fuel rest
      | none => .char c :: parseWithin fuel cs
    else .char c :: parseWithin fuel cs

/-- The elements of a pattern; each takes at least one character of it. -/
def parse (s : String) : List PatternItem := parseWithin s.toList.length s.toList

/-! ### Matching -/

/-- Whether one element matches one character. -/
def accepts (c : Char) : PatternItem → Bool
  | .anyText | .anyChar => true
  | .char d => c = d
  | .choice negated ranges => ranges.any (fun r => r.1 ≤ c && c ≤ r.2) != negated

/-- Tries every place for what follows a star. -/
def somewhere (rest : List Char → Bool) : List Char → Bool
  | [] => rest []
  | c :: cs => rest (c :: cs) || somewhere rest cs

/-- Whether a pattern matches a whole text. -/
def matchAll : List PatternItem → List Char → Bool
  | [], cs => cs.isEmpty
  | .anyText :: items, cs => somewhere (matchAll items) cs
  | item :: items, c :: cs => item.accepts c && matchAll items cs
  | _ :: _, [] => false

end PatternItem

end ActorOwnership
