/-
# The command line

Arguments are read from left to right. Those that begin with a dash are options, up to an argument
`--`, and all others are positional: first the grammar file, then the inputs for the recogniser. An
option may be given once. Its value is the next argument, which then must not begin with a dash, or
it is attached to the option.
-/
namespace LL1

/-! ## Options -/

/-- What the program is asked to do with a grammar. -/
structure Options where
  /-- The path of the grammar file. -/
  file : String
  /-- The inputs for the recogniser. -/
  inputs : List String := []
  /-- How many random sentences are to be printed. -/
  amount : Option Nat := none
  /-- The seed of the sentences. -/
  seed : Option UInt64 := none
  /-- The depth from which sentences take the shortest way out. -/
  maxDepth : Nat := 16
  /-- Whether only verdicts are printed. -/
  quiet : Bool := false
  deriving DecidableEq, Repr

/-- What a command line asks for. -/
inductive Request where
  /-- The version of the program. -/
  | version
  /-- Work on a grammar. -/
  | work (o : Options)
  deriving DecidableEq, Repr

/-- Why a command line is refused. -/
inductive UsageError where
  /-- There is no option of this name. -/
  | unknownOption (name : List Char)
  /-- An option needs a value and has none. -/
  | missingValue
  /-- An option has a value and takes none. -/
  | unexpectedValue
  /-- A value is not a number in the range of its option. -/
  | invalidValue (text : List Char)
  /-- An option is given twice. -/
  | repeated
  /-- There is no grammar file, or its path is empty. -/
  | missingFile
  deriving DecidableEq, Repr

/-- The wording of a usage error. -/
def UsageError.message : UsageError → String
  | .unknownOption name => "unknown option `" ++ String.ofList name ++ "`"
  | .missingValue => "an option needs a value"
  | .unexpectedValue => "an option takes no value"
  | .invalidValue text => "invalid value `" ++ String.ofList text ++ "`"
  | .repeated => "an option is given twice"
  | .missingFile => "no grammar file is given"

/-! ## Numbers -/

/-- The number that decimal digits denote. -/
def readDigits (text : List Char) : Option Nat :=
  if text.isEmpty || !text.all Char.isDigit then none
  else some (text.foldl (fun n c => 10 * n + (c.toNat - '0'.toNat)) 0)

/-- A number without a minus sign. A plus sign is allowed. -/
def readNatural : List Char → Option Nat
  | '+' :: digits => readDigits digits
  | text => readDigits text

/-- A number that may have either sign, if it is not negative. -/
def readSigned : List Char → Option Nat
  | '-' :: digits => (readDigits digits).filter fun n => n == 0
  | text => readNatural text

/-- The numbers of 32 bits are below this one. -/
def shortLimit : Nat := 4294967296

/-- The numbers of 64 bits are below this one. -/
def longLimit : Nat := 18446744073709551616

/-! ## Reading options -/

/-- The options that have a value. -/
inductive Setting where
  /-- How many sentences to print, a number of 32 bits. -/
  | amount
  /-- The seed, a number of 64 bits. -/
  | seed
  /-- The depth limit, a number of 64 bits. -/
  | maxDepth
  deriving DecidableEq, Repr

/-- The options. -/
inductive OptionName where
  /-- One that has a value. -/
  | setting (s : Setting)
  /-- The one that leaves only the verdicts. -/
  | quiet
  /-- The one that asks for the version. -/
  | version
  deriving DecidableEq, Repr

/-- The option with a long name. -/
def OptionName.ofLong? (name : List Char) : Option OptionName :=
  if name = "generate".toList then some (.setting .amount)
  else if name = "seed".toList then some (.setting .seed)
  else if name = "max-depth".toList then some (.setting .maxDepth)
  else if name = "quiet".toList then some .quiet
  else if name = "version".toList then some .version
  else none

/-- The option with a name of one letter. -/
def OptionName.ofShort? : Char → Option OptionName
  | 'n' => some (.setting .amount)
  | 'q' => some .quiet
  | 'V' => some .version
  | _ => none

/-- What has been read of a command line. -/
structure Draft where
  /-- The positional arguments, last one first. -/
  positionals : List String := []
  /-- The amount, if given. -/
  amount : Option Nat := none
  /-- The seed, if given. -/
  seed : Option UInt64 := none
  /-- The depth limit, if given. -/
  maxDepth : Option Nat := none
  /-- Whether the verdicts alone are asked for. -/
  quiet : Bool := false
  deriving DecidableEq, Repr

namespace Draft

/-- Adds a positional argument. The first one is the path of the grammar file, which is not empty. -/
def addPositional (d : Draft) (text : String) : Except UsageError Draft :=
  if d.positionals.isEmpty && text.isEmpty then .error .missingFile
  else .ok { d with positionals := text :: d.positionals }

/-- The value of a setting, if it is a number below the limit. -/
def readBelow (read : List Char → Option Nat) (limit : Nat) (text : List Char) :
    Except UsageError Nat :=
  match read text with
  | none => .error (.invalidValue text)
  | some n => if n < limit then .ok n else .error (.invalidValue text)

/-- Gives a setting its value. -/
def set (d : Draft) (s : Setting) (text : List Char) : Except UsageError Draft :=
  match s with
  | .amount =>
    if d.amount.isSome then .error .repeated
    else (readBelow readSigned shortLimit text).map fun n => { d with amount := some n }
  | .seed =>
    if d.seed.isSome then .error .repeated
    else (readBelow readNatural longLimit text).map fun n => { d with seed := some n.toUInt64 }
  | .maxDepth =>
    if d.maxDepth.isSome then .error .repeated
    else (readBelow readNatural longLimit text).map fun n => { d with maxDepth := some n }

/-- Asks for the verdicts alone. -/
def setQuiet (d : Draft) : Except UsageError Draft :=
  if d.quiet then .error .repeated else .ok { d with quiet := true }

/-- The options, if a grammar file was given. -/
def finish (d : Draft) : Except UsageError Options :=
  match d.positionals.reverse with
  | [] => .error .missingFile
  | file :: inputs =>
    .ok {
      file
      inputs
      amount := d.amount
      seed := d.seed
      maxDepth := d.maxDepth.getD 16
      quiet := d.quiet }

end Draft

/-- How reading goes on after an argument. -/
inductive Reading where
  /-- The argument is complete. -/
  | complete (d : Draft)
  /-- The next argument is the value of this setting. -/
  | awaiting (s : Setting) (d : Draft)
  /-- The version is asked for, nothing else counts. -/
  | version
  deriving DecidableEq, Repr

/-- Splits the text behind `--` at the first equals sign, if it has one. -/
def splitAtEquals : List Char → List Char × Option (List Char)
  | [] => ([], none)
  | '=' :: rest => ([], some rest)
  | c :: rest => (c :: (splitAtEquals rest).1, (splitAtEquals rest).2)

/-- Reads an option with a long name, given what stands behind its two dashes. -/
def readLong (text : List Char) (d : Draft) : Except UsageError Reading :=
  match splitAtEquals text with
  | (name, value) =>
    match OptionName.ofLong? name, value with
    | none, _ => .error (.unknownOption name)
    | some (.setting s), some value => (d.set s value).map .complete
    | some (.setting s), none => .ok (.awaiting s d)
    | some _, some _ => .error .unexpectedValue
    | some .quiet, none => d.setQuiet.map .complete
    | some .version, none => .ok .version

/-- A value attached to a short option, with or without an equals sign. -/
def attachedValue : List Char → List Char
  | '=' :: value => value
  | value => value

/-- Reads short options, given what stands behind their dash. The rest of the argument behind a
setting is its value. -/
def readShort : List Char → Draft → Except UsageError Reading
  | [], d => .ok (.complete d)
  | c :: rest, d =>
    match OptionName.ofShort? c with
    | none => .error (.unknownOption [c])
    | some .version => .ok .version
    | some .quiet =>
      match d.setQuiet with
      | .error e => .error e
      | .ok d => readShort rest d
    | some (.setting s) =>
      if rest.isEmpty then .ok (.awaiting s d)
      else (d.set s (attachedValue rest)).map .complete

/-- Reads an argument other than `--`. A single dash is positional. -/
def readArgument (arg : String) (d : Draft) : Except UsageError Reading :=
  match arg.toList with
  | '-' :: '-' :: text => readLong text d
  | '-' :: c :: text => readShort (c :: text) d
  | _ => (d.addPositional arg).map .complete

/-- Whether an argument can be the value of the setting before it. -/
def isSeparateValue (arg : String) : Bool :=
  match arg.toList with
  | '-' :: _ :: _ => false
  | _ => true

/-- Reads the positional arguments behind `--`. -/
def readPositionals : List String → Draft → Except UsageError Draft
  | [], d => .ok d
  | arg :: rest, d =>
    match d.addPositional arg with
    | .error e => .error e
    | .ok d => readPositionals rest d

/-- Reads arguments. -/
def readArguments : List String → Draft → Except UsageError Request
  | [], d => d.finish.map .work
  | arg :: rest, d =>
    if arg = "--" then
      match readPositionals rest d with
      | .error e => .error e
      | .ok d => d.finish.map .work
    else
      match readArgument arg d with
      | .error e => .error e
      | .ok .version => .ok .version
      | .ok (.complete d) => readArguments rest d
      | .ok (.awaiting s d) =>
        match rest with
        | [] => .error .missingValue
        | value :: rest =>
          if isSeparateValue value then
            match d.set s value.toList with
            | .error e => .error e
            | .ok d => readArguments rest d
          else .error .missingValue

/-- Reads a command line. -/
def Request.ofArguments (args : List String) : Except UsageError Request :=
  readArguments args {}

end LL1
