import ActorOwnership.Text.Digit
import ActorOwnership.Text.Quoted

/-! Command-line arguments: options with and without values, and positional arguments.

Long options may be shortened as long as only one fits, short ones may be written together, and a
value may be attached to its option. Two hyphens end the options. -/

namespace ActorOwnership.Arguments
set_option autoImplicit false

/-- What an option does to the settings. -/
inductive Role (σ : Type) where
  /-- Shows the help and stops. -/
  | help
  | flag (set : σ → σ)
  /-- Takes one value, which it may refuse. -/
  | value (set : String → σ → Except String σ)

structure Opt (σ : Type) where
  names : List String
  role : Role σ

/-- Which words the positional argument of an interface takes. -/
inductive Positional where
  | single
  /-- One word and all words after it, options included. -/
  | remainder
  deriving DecidableEq, Repr

structure Interface (σ : Type) where
  options : List (Opt σ)
  positional : Positional

/-- Why reading the arguments stops. -/
inductive Stop where
  | help
  | fault (message : String)
  deriving DecidableEq, Repr

variable {σ : Type}

namespace Opt

def takesValue (o : Opt σ) : Bool :=
  match o.role with
  | .value _ => true
  | _ => false

/-- A fault that names the option. -/
def fault (o : Opt σ) (message : String) : Stop :=
  .fault ("argument " ++ String.intercalate "/" o.names ++ ": " ++ message)

def refuse (o : Opt σ) (text : List Char) : Stop :=
  o.fault ("ignored explicit argument " ++ Text.quoted (String.ofList text))

/-- Applies the option, with its value if it takes one. -/
def apply (o : Opt σ) (value : String) (s : σ) : Except Stop σ :=
  match o.role with
  | .help => .error .help
  | .flag set => .ok (set s)
  | .value set => (set value s).mapError o.fault

end Opt

/-- A value written together with its option, perhaps after an equals sign. -/
structure Attached where
  text : List Char
  equals : Bool
  deriving DecidableEq, Repr

/-- An argument as it is first seen. -/
inductive Word (σ : Type) where
  | plain (text : String)
  | dashes
  | option (text : String) (spec : Option (Opt σ)) (attached : Option Attached)

namespace Word

def text : Word σ → String
  | .plain s => s
  | .dashes => "--"
  | .option s _ _ => s

def isOption : Word σ → Bool
  | .option .. => true
  | _ => false

end Word

namespace Interface

/-- Options by name, in the order in which they were declared. -/
def named (i : Interface σ) : List (String × Opt σ) :=
  i.options.flatMap fun o => o.names.map fun n => (n, o)

def find? (i : Interface σ) (name : String) : Option (Opt σ) := i.named.lookup name

/-! ### Recognizing options -/

/-- The part before the first equals sign and, if there is one, the part after it. -/
def splitEquals (cs : List Char) : List Char × Option (List Char) :=
  match cs.dropWhile (· ≠ '=') with
  | [] => (cs, none)
  | _ :: value => (cs.takeWhile (· ≠ '='), some value)

/-- The options that a long name may be short for. -/
def longCandidates (i : Interface σ) (cs : List Char) :
    List (String × Opt σ × Option Attached) :=
  let (name, value) := splitEquals cs
  (i.named.filter fun (n, _) => name.isPrefixOf n.toList).map fun (n, o) =>
    (n, o, value.map fun v => ⟨v, true⟩)

/-- The options that a word with one hyphen may stand for: a short one with something attached, or
any name that starts like it. -/
def shortCandidates (i : Interface σ) (cs : List Char) :
    List (String × Opt σ × Option Attached) :=
  i.named.filterMap fun (n, o) =>
    if n.toList = cs.take 2 then some (n, o, some ⟨cs.drop 2, false⟩)
    else if cs.isPrefixOf n.toList then some (n, o, none)
    else none

def candidates (i : Interface σ) (cs : List Char) : List (String × Opt σ × Option Attached) :=
  match cs with
  | '-' :: '-' :: _ => i.longCandidates cs
  | _ => i.shortCandidates cs

/-- Digits, perhaps with a point before the last ones, behind a hyphen. -/
def isNegativeNumber (cs : List Char) : Bool :=
  match cs with
  | '-' :: body =>
    let body := if body.getLast? = some '\n' then body.dropLast else body
    let isDecimal (c : Char) := (Text.decimalValue? c).isSome
    let rest := body.dropWhile isDecimal
    (rest.isEmpty && !body.isEmpty) ||
      (rest.head? = some '.' && !rest.tail.isEmpty && rest.tail.all isDecimal)
  | _ => false

/-- An argument that starts with a hyphen and is no option by its full name. -/
def recognizeLoose (i : Interface σ) (s : String) (cs : List Char) : Except Stop (Word σ) :=
  match i.candidates cs with
  | [(_, o, attached)] => .ok (.option s (some o) attached)
  | [] =>
    if isNegativeNumber cs || cs.contains ' ' then .ok (.plain s) else .ok (.option s none none)
  | several => .error (.fault ("ambiguous option: " ++ s ++ " could match " ++
      String.intercalate ", " (several.map Prod.fst)))

def recognize (i : Interface σ) (s : String) : Except Stop (Word σ) :=
  let cs := s.toList
  let (name, value) := splitEquals cs
  if cs.head? ≠ some '-' then .ok (.plain s)
  else match i.find? s, value.bind fun v => (i.find? (String.ofList name)).map fun o => (o, v) with
    | some o, _ => .ok (.option s (some o) none)
    | none, some (o, v) =>
      if cs.length = 1 then .ok (.plain s) else .ok (.option s (some o) (some ⟨v, true⟩))
    | none, none => if cs.length = 1 then .ok (.plain s) else i.recognizeLoose s cs

/-- All arguments; behind two hyphens none is an option. -/
def words (i : Interface σ) : List String → Except Stop (List (Word σ))
  | [] => .ok []
  | s :: rest =>
    if s = "--" then .ok (.dashes :: rest.map .plain)
    else do
      let w ← i.recognize s
      return w :: (← i.words rest)

/-! ### Taking arguments -/

/-- What the words have said so far. -/
structure Reading (σ : Type) where
  settings : σ
  positional : Option (List String) := none
  extras : List String := []

/-- Options to apply, with their values, and words that are left over. -/
structure Cluster (σ : Type) where
  uses : List (Opt σ × String) := []
  extras : List String := []
  rest : List (Word σ)

/-- An option without an attached value takes it from the next word. -/
def takeValue (o : Opt σ) (rest : List (Word σ)) : Except Stop (Cluster σ) :=
  if !o.takesValue then .ok ⟨[(o, "")], [], rest⟩
  else match rest with
    | .plain s :: rest => .ok ⟨[(o, s)], [], rest⟩
    | _ => .error (o.fault "expected one argument")

/-- A short flag with more characters behind it stands for several options. -/
def expand (i : Interface σ) (o : Opt σ) (text : List Char) (rest : List (Word σ)) :
    Except Stop (Cluster σ) :=
  if o.takesValue then .ok ⟨[(o, String.ofList text)], [], rest⟩
  else match text with
    | [] => .error (o.refuse text)
    | '-' :: _ => .error (o.refuse text)
    | c :: more => do
      let next ← match i.find? (String.ofList ['-', c]), more with
        | none, _ => .ok ⟨[], [String.ofList ('-' :: c :: more)], rest⟩
        | some p, [] => takeValue p rest
        | some p, '=' :: value =>
          if p.takesValue then .ok ⟨[(p, String.ofList value)], [], rest⟩ else .error (p.refuse value)
        | some p, c :: more => expand i p (c :: more) rest
      return { next with uses := (o, "") :: next.uses }
termination_by text.length

/-- Whether the option was written by a name with one hyphen. -/
def isShort (s : String) : Bool := (s.toList.drop 1).head? ≠ some '-'

def cluster (i : Interface σ) (s : String) (o : Opt σ) (attached : Option Attached)
    (rest : List (Word σ)) : Except Stop (Cluster σ) :=
  match attached with
  | none => takeValue o rest
  | some a =>
    if o.takesValue then .ok ⟨[(o, String.ofList a.text)], [], rest⟩
    else if isShort s && !a.equals then i.expand o a.text rest
    else .error (o.refuse a.text)

def useAll : List (Opt σ × String) → σ → Except Stop σ
  | [], s => .ok s
  | (o, value) :: rest, s => do useAll rest (← o.apply value s)

/-- The words of the positional argument, and what is left. -/
def takePositional (i : Interface σ) (ws : List (Word σ)) :
    Option (List String × List (Word σ)) :=
  let lead := ws.takeWhile fun w => match w with | .dashes => true | _ => false
  match ws.drop lead.length, i.positional with
  | .plain s :: rest, .single =>
    let trail := rest.takeWhile fun w => match w with | .dashes => true | _ => false
    some ([s], rest.drop trail.length)
  | .plain _ :: _, .remainder => some (ws.map Word.text, [])
  | _, _ => none

/-- Takes the positional argument if it is still to come. -/
def positionalStep (i : Interface σ) (r : Reading σ) (ws : List (Word σ)) :
    Option (Reading σ × List (Word σ)) :=
  match r.positional, i.takePositional ws with
  | none, some (values, rest) => some ({ r with positional := some values }, rest)
  | _, _ => none

/-- Goes through the words: positional arguments before each option, then the option. -/
def readWords (i : Interface σ) : Nat → List (Word σ) → Reading σ → Except Stop (Reading σ)
  | 0, ws, r => .ok { r with extras := r.extras ++ ws.map Word.text }
  | fuel + 1, ws, r =>
    match ws with
    | .option s none _ :: rest => readWords i fuel rest { r with extras := r.extras ++ [s] }
    | .option s (some o) attached :: rest => do
      let c ← i.cluster s o attached rest
      let settings ← useAll c.uses r.settings
      readWords i fuel c.rest { r with settings := settings, extras := r.extras ++ c.extras }
    | ws =>
      match i.positionalStep r ws with
      | some (r, rest) => readWords i fuel rest r
      | none =>
        let loose := ws.takeWhile fun w => !w.isOption
        let r := { r with extras := r.extras ++ loose.map Word.text }
        match ws.drop loose.length with
        | [] => .ok r
        | rest => readWords i fuel rest r

/-- Reads the arguments into settings; words that fit nowhere are left over. -/
def read (i : Interface σ) (settings : σ) (args : List String) : Except Stop (Reading σ) := do
  let ws ← i.words args
  i.readWords (2 * ws.length + 1) ws { settings }

end Interface

/-! ### Values -/

/-- One of a list of words. -/
def choice (choices : List String) (set : String → σ → σ) : Role σ :=
  .value fun s settings =>
    if choices.contains s then .ok (set s settings)
    else .error ("invalid choice: " ++ Text.quoted s ++ " (choose from " ++
      String.intercalate ", " (choices.map Text.quoted) ++ ")")

def text (set : String → σ → σ) : Role σ := .value fun s settings => .ok (set s settings)

end ActorOwnership.Arguments
