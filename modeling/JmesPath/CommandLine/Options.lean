/-! # Arguments of a command

* `OptionSpec` — an option of a command: its names, and whether it takes a value
* `Arguments` — what the arguments of a command say
* `Arguments.read` — reads arguments against the options of a command

An option stands alone as `-p` or `--pretty`.  The value of an option follows as the
next argument or, in the same argument, behind the short name or behind an equals sign.
Short options without a value can share a dash.  What does not start with a dash is a
positional argument, and so is everything behind `--`.  A value or a positional
argument may be a single dash, and no option may be given twice.
-/

namespace JmesPath.CommandLine

/-- An option of a command. -/
structure OptionSpec where
  short : Option Char
  long : String
  takesValue : Bool
  deriving DecidableEq

/-- Why arguments are not obeyed. -/
inductive Refusal
  | help
  | version
  | usage
  deriving DecidableEq

/-- What the arguments of a command say: the options given, each with its value, and
    the positional arguments. -/
structure Arguments where
  given : List (String × String)
  positionals : List String
  deriving DecidableEq

namespace Arguments

def empty : Arguments := ⟨[], []⟩

def has (a : Arguments) (long : String) : Bool := a.given.any fun (name, _) => name == long

def value? (a : Arguments) (long : String) : Option String :=
  (a.given.find? fun (name, _) => name == long).map Prod.snd

def give (a : Arguments) (long value : String) : Except Refusal Arguments :=
  if a.has long then .error .usage else .ok { a with given := a.given ++ [(long, value)] }

def position (a : Arguments) (s : String) : Arguments :=
  { a with positionals := a.positionals ++ [s] }

end Arguments

def looksLikeOption (s : String) : Bool :=
  match s.toList with
  | '-' :: _ :: _ => true
  | _ => false

/-- What an option needs after its argument has been read. -/
inductive Pending
  | nothing (a : Arguments)
  | value (a : Arguments) (long : String)

def readShort (specs : List OptionSpec) (version : Bool) (a : Arguments) :
    List Char → Except Refusal Pending
  | [] => .ok (.nothing a)
  | c :: cs =>
    if c = 'h' then .error .help
    else if version && c == 'V' then .error .version
    else match specs.find? fun s => s.short == some c with
      | none => .error .usage
      | some s =>
        if s.takesValue then
          -- All letters behind the name are the value.
          match cs with
          | [] => .ok (.value a s.long)
          | '=' :: v => (a.give s.long (String.ofList v)).map .nothing
          | v => (a.give s.long (String.ofList v)).map .nothing
        else
          match a.give s.long "" with
          | .ok a => readShort specs version a cs
          | .error r => .error r

def readLong (specs : List OptionSpec) (version : Bool) (a : Arguments) (text : List Char) :
    Except Refusal Pending :=
  let name := String.ofList (text.takeWhile (· != '='))
  let value? := match text.dropWhile (· != '=') with
    | _ :: v => some (String.ofList v)
    | [] => none
  let builtIn := if name == "help" then some Refusal.help
    else if version && name == "version" then some Refusal.version
    else none
  match builtIn with
  -- Neither of them takes a value.
  | some r => .error (if value?.isSome then .usage else r)
  | none =>
    match specs.find? fun s => s.long == name with
    | none => .error .usage
    | some s =>
      match s.takesValue, value? with
      | true, some v => (a.give name v).map .nothing
      | true, none => .ok (.value a name)
      | false, some _ => .error .usage
      | false, none => (a.give name "").map .nothing

def readOption (specs : List OptionSpec) (version : Bool) (a : Arguments) (s : String) :
    Except Refusal Pending :=
  match s.toList with
  | '-' :: '-' :: text => readLong specs version a text
  | _ :: letters => readShort specs version a letters
  | [] => .ok (.nothing a)

/-- Reads the arguments of a command.  `accept` checks what has been read so far and is
    asked after each argument. -/
def Arguments.read (specs : List OptionSpec) (accept : Arguments → Bool) :
    (a : Arguments) → List String → Except Refusal Arguments
  | a, [] => .ok a
  | a, s :: rest =>
    if s == "--" then
      let all := rest.foldl Arguments.position a
      if accept all then .ok all else .error .usage
    else if looksLikeOption s then
      match readOption specs false a s with
      | .error r => .error r
      | .ok (.nothing a) => if accept a then read specs accept a rest else .error .usage
      | .ok (.value a long) =>
        match rest with
        | [] => .error .usage
        | v :: rest =>
          if looksLikeOption v then .error .usage
          else match a.give long v with
            | .error r => .error r
            | .ok a => if accept a then read specs accept a rest else .error .usage
    else
      let a := a.position s
      if accept a then read specs accept a rest else .error .usage

end JmesPath.CommandLine
