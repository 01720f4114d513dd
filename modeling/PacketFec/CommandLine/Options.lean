/-!
# The grammar of options

An option has a long name behind two dashes and may have a letter behind one. Letters may stand together.
The value of an option stands in the same argument, behind an equals sign where the name is long, or in the
next argument, which must not look like an option itself. No option may be given twice. Two dashes alone end
the options; all other arguments are operands.

* `Grammar.scan`: the options and operands at the front of a list of arguments.
-/

namespace PacketFec.CommandLine

/-- Why no command was understood. -/
inductive Stop where
  /-- The arguments break the grammar. -/
  | usage
  /-- Help was asked for. -/
  | help
  /-- The version was asked for. -/
  | version
  deriving DecidableEq

/-- An option. -/
structure OptionSpec where
  /-- The name behind two dashes. -/
  long : String
  /-- The letter behind one dash. -/
  short : Option Char
  /-- Which values the option takes; nothing where it takes none. -/
  accepts : Option (String → Bool)

/-- The options and operands of a command. -/
structure Grammar where
  /-- The options. -/
  options : List OptionSpec
  /-- The options that end the reading at once, with what they ask for. -/
  requests : List (OptionSpec × Stop)
  /-- How many operands there may be; nothing where the first one ends the reading. -/
  operands : Option Nat

/-- The arguments read so far. -/
structure Parsed where
  /-- The options given, with their values; a switch has none. -/
  options : List (String × String) := []
  /-- The operands given. -/
  operands : List String := []

namespace Parsed

/-- Whether an option was given. -/
def has (p : Parsed) (name : String) : Bool := p.options.any (·.1 = name)

/-- The value of an option, if it was given. -/
def value? (p : Parsed) (name : String) : Option String := p.options.lookup name

/-- Take an option with its value. -/
def take (p : Parsed) (o : OptionSpec) (value : String) : Except Stop Parsed :=
  if p.has o.long then .error .usage
  else if (o.accepts.map (· value)).getD true then
    .ok { p with options := p.options ++ [(o.long, value)] }
  else .error .usage

end Parsed

/-- Whether an argument looks like an option: it starts with a dash and does not end there. -/
def looksLikeOption (arg : String) : Bool :=
  match arg.toList with
  | '-' :: _ :: _ => true
  | _ => false

namespace Grammar

/-- A switch or an option that awaits a value, once its name has been read. -/
inductive Found where
  | option (o : OptionSpec)
  | request (stop : Stop)
  | unknown

/-- The option that a test on specifications names. -/
def find (g : Grammar) (test : OptionSpec → Bool) : Found :=
  match g.options.find? test with
  | some o => .option o
  | none =>
    match g.requests.find? fun r => test r.1 with
    | some r => .request r.2
    | none => .unknown

/-- Read letters behind one dash. The result is what has been read, and the option that awaits its value in
the next argument, if there is one. -/
def letters (g : Grammar) (p : Parsed) : List Char → Except Stop (Parsed × Option OptionSpec)
  | [] => .ok (p, none)
  | c :: rest =>
    match g.find (·.short = some c) with
    | .unknown => .error .usage
    | .request stop => .error stop
    | .option o =>
      if o.accepts.isNone then do letters g (← p.take o "") rest
      else match rest with
        | [] => .ok (p, some o)
        | '=' :: value => do return (← p.take o (String.ofList value), none)
        | value => do return (← p.take o (String.ofList value), none)

/-- Read a name behind two dashes, which a value may follow behind an equals sign. -/
def longName (g : Grammar) (p : Parsed) (text : List Char) : Except Stop (Parsed × Option OptionSpec) :=
  let name := String.ofList (text.takeWhile (· ≠ '='))
  match g.find (·.long = name), text.dropWhile (· ≠ '=') with
  | .unknown, _ => .error .usage
  | .request stop, [] => .error stop
  | .request _, _ => .error .usage
  | .option o, [] =>
    if o.accepts.isNone then do return (← p.take o "", none) else .ok (p, some o)
  | .option o, _ :: value =>
    if o.accepts.isNone then .error .usage else do return (← p.take o (String.ofList value), none)

/-- Read one argument that looks like an option. -/
def optionArgument (g : Grammar) (p : Parsed) (arg : String) : Except Stop (Parsed × Option OptionSpec) :=
  match arg.toList with
  | '-' :: '-' :: text => g.longName p text
  | '-' :: text => g.letters p text
  | _ => .error .usage

/-- Take operands, of which there must not be too many. -/
def takeOperands (g : Grammar) (p : Parsed) (args : List String) : Except Stop Parsed :=
  if p.operands.length + args.length ≤ g.operands.getD 0 then
    .ok { p with operands := p.operands ++ args }
  else .error .usage

/-- Read arguments. Where the first operand ends the reading, it and all behind it are left. -/
def scan (g : Grammar) (p : Parsed) : List String → Except Stop (Parsed × List String)
  | [] => .ok (p, [])
  | arg :: rest =>
    if arg = "--" then do return (← g.takeOperands p rest, [])
    else if looksLikeOption arg then
      match g.optionArgument p arg with
      | .error stop => .error stop
      | .ok (p, none) => scan g p rest
      | .ok (p, some o) =>
        match rest with
        | value :: rest =>
          if looksLikeOption value then .error .usage
          else match p.take o value with
            | .error stop => .error stop
            | .ok p => scan g p rest
        | [] => .error .usage
    else if g.operands.isNone then .ok (p, arg :: rest)
    else match g.takeOperands p [arg] with
      | .error stop => .error stop
      | .ok p => scan g p rest

end Grammar

end PacketFec.CommandLine
