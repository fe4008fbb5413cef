/-
# What the program prints

The program loads a grammar, prepares it, shows it with its sets and its table, prints random
sentences of the grammar as it was loaded, and gives a verdict on each input. Results go to standard
output, errors to standard error. The program succeeds if nothing failed and every input was
accepted. It ends early if a table is too wide to be printed.
-/
import LL1.Command.Options
import LL1.Sentence.RandomWords
import LL1.Store.Calls

namespace LL1

/-! ## Responses -/

/-- How a run of the program ends. -/
inductive Ending where
  /-- Nothing failed. -/
  | success
  /-- Something failed, and what was left was done. -/
  | failure
  /-- The program broke off. -/
  | crash
  deriving DecidableEq, Repr

/-- What a run of the program leaves behind. -/
structure Response where
  /-- The lines written to standard output. -/
  output : List String := []
  /-- The lines written to standard error, without the report of a crash. -/
  errors : List String := []
  /-- How it ends. -/
  ending : Ending := .success
  deriving DecidableEq, Repr

namespace Response

/-- One response after the other. After a crash there is nothing more. -/
def append (a b : Response) : Response :=
  match a.ending, b.ending with
  | .crash, _ => a
  | .failure, .success => ⟨a.output ++ b.output, a.errors ++ b.errors, .failure⟩
  | _, ending => ⟨a.output ++ b.output, a.errors ++ b.errors, ending⟩

/-- Several responses one after the other. -/
def concat (responses : List Response) : Response :=
  responses.foldl append {}

/-- The response that prints a line. -/
def line (text : String) : Response :=
  { output := [text] }

/-- The response that prints a table, or breaks off if it is too wide. -/
def table (text : Option (List Char)) : Response :=
  match text with
  | none => { ending := .crash }
  | some text => line (String.ofList text)

/-- The response that only reports errors. -/
def failed (errors : List String) : Response :=
  { errors, ending := .failure }

/-- Lines as a text, each with a line break behind it. -/
def textOfLines (lines : List String) : String :=
  lines.foldl (fun text line => text ++ line ++ "\n") ""

/-- The exit code of the program. -/
def exitCode (r : Response) : UInt32 :=
  match r.ending with
  | .success => 0
  | .failure => 1
  | .crash => 101

end Response

/-- The exit code for a command line that is refused. -/
def usageExitCode : UInt32 := 2

/-- The name and the version of the program. -/
def versionLine : String := "descent 0.1.0"

/-! ## Showing a grammar -/

/-- The members of a set, separated by commas. -/
def SymbolSet.listing (a : SymbolSet) : List Char :=
  [',', ' '].intercalate (a.toList.map fun s => [s])

/-- The FIRST and FOLLOW sets of the non-terminals as rows of text. -/
def Store.setRows (s : Store) : List (List (List Char)) :=
  [[], "FIRST".toList, "FOLLOW".toList] ::
    s.orderedHeads.map fun h => [[h.symbol], h.first.listing, h.follow.listing]

/-- The grammar, its sets, its table and its conflicts. -/
def Store.description (s : Store) : Response :=
  .concat
    [.line (String.ofList s.grammar.text), .table (renderRows s.setRows), .line "",
      .table (renderRows (s.grid s.prediction.table)),
      { output := s.prediction.conflicts.map Conflict.message }]

/-! ## Sentences -/

/-- A number of random sentences, one per line. The first failure ends them. -/
def Grammar.sentenceResponse (g : Grammar) (maxDepth amount : Nat) (words : RandomWords) :
    Response :=
  match g.growSentences RandomWords.chooser maxDepth g.start amount words with
  | (sentences, failure) =>
    { output := sentences.map Word.text
      errors := failure.toList.map fun e => e.located.render GrowthFailure.message
      ending := if failure.isNone then .success else .failure }

/-! ## Verdicts -/

/-- The line that tells whether an input was accepted. -/
def Outcome.verdictLine (input : String) : Outcome → String
  | .rejected reason => "`" ++ input ++ "` rejected: " ++ reason.message
  | _ => "`" ++ input ++ "` accepted"

/-- The verdict on an input, after a trace unless only the verdict is asked for. -/
def Store.verdictResponse (s : Store) (quiet : Bool) (input : String) : Response :=
  let verdict := s.workspace.recognise input.toList
  let trace : Response :=
    if quiet then {}
    else .concat [.line "", .table (renderTrace (verdict.trace.map Row.line))]
  trace.append
    { output := [verdict.outcome.verdictLine input]
      ending := if verdict.accepted then .success else .failure }

/-! ## The whole program -/

/-- The response to options, given the contents of the grammar file and a seed in case the options
have none. -/
def Options.response (o : Options) (contents : Except ReadFailure (List UInt8)) (entropy : UInt64) :
    Response :=
  match Store.ofFile o.file contents with
  | .error faults => .failed (faults.map fun e => e.render Fault.message)
  | .ok original =>
    match original.call Store.process with
    | (.error e, _) => .failed [e.message]
    | (.ok _, processed) =>
      let description := if o.quiet then {} else processed.description
      let words : RandomWords := { source := .ofSeed (o.seed.getD entropy) }
      let sentences :=
        match o.amount with
        | none => {}
        | some amount => original.grammar.sentenceResponse o.maxDepth amount words
      .concat (description :: sentences :: o.inputs.map (processed.verdictResponse o.quiet))

end LL1
