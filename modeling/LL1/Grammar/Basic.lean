/-
# Grammars

A grammar is a list of non-terminals in order of declaration. The first one is the start symbol.
What is known about a grammar (its sets, its table) is kept elsewhere, so two grammars are equal
when they have the same non-terminals with the same alternatives in the same order.
-/
import LL1.Grammar.NonTerminal
import LL1.Symbol.SymbolSet

namespace LL1

/-- A context-free grammar. -/
structure Grammar where
  /-- The non-terminals, in order of declaration. -/
  nonTerminals : List NonTerminal
  deriving DecidableEq, Repr

/-- The position of a rule: its head and its index among the alternatives of the head. -/
structure RuleId where
  /-- The non-terminal the rule belongs to. -/
  head : Symbol
  /-- The position among the alternatives, from zero. -/
  index : Nat
  deriving DecidableEq, Repr

namespace Grammar

/-! ## Looking things up -/

/-- The symbols of the non-terminals, in order of declaration. -/
def symbols (g : Grammar) : List Symbol :=
  g.nonTerminals.map NonTerminal.symbol

/-- The non-terminal with the given symbol. -/
def find? (g : Grammar) (s : Symbol) : Option NonTerminal :=
  g.nonTerminals.find? fun n => n.symbol == s

/-- Whether the grammar defines the symbol. -/
def declares (g : Grammar) (s : Symbol) : Bool :=
  (g.find? s).isSome

/-- The start symbol, which is the first one declared. A grammar without non-terminals starts with
the empty word. -/
def start (g : Grammar) : Symbol :=
  match g.nonTerminals with
  | [] => epsilon
  | n :: _ => n.symbol

/-- All rules, in order of declaration. -/
def rules (g : Grammar) : List Rule :=
  g.nonTerminals.flatMap NonTerminal.rules

/-- The right-hand side of the rule at a position. -/
def body? (g : Grammar) (id : RuleId) : Option Word :=
  match g.find? id.head with
  | none => none
  | some n => n.alternatives[id.index]?

/-- The terminal alphabet: the terminals of the right-hand sides in order of appearance, epsilon
left out, and the end marker. -/
def terminals (g : Grammar) : SymbolSet :=
  (SymbolSet.ofList
    ((g.rules.flatMap Rule.body).filter fun s => isTerminal s && s != epsilon)).insert endMarker

/-- The grammar as text, one rule per line. -/
def text (g : Grammar) : List Char :=
  g.nonTerminals.flatMap NonTerminal.text

/-! ## Building a grammar from rules -/

/-- Adds a rule to a list of non-terminals: to the one it belongs to, or as a new one at the end. -/
def addRule (r : Rule) : List NonTerminal → List NonTerminal
  | [] => [{ symbol := r.head, alternatives := [r.body] }]
  | n :: rest => if n.symbol = r.head then n.add r.body :: rest else n :: addRule r rest

/-- The grammar of a list of rules. Non-terminals come in the order in which they first appear as a
head, and a rule that is repeated counts once. -/
def ofRules (rules : List Rule) : Grammar :=
  ⟨rules.foldl (fun ns r => addRule r ns) []⟩

/-! ## Members -/

/-- What is found bears the symbol that was looked for. -/
theorem symbol_of_find?_eq_some {g : Grammar} {s : Symbol} {n : NonTerminal}
    (h : g.find? s = some n) : n.symbol = s := by
  have := List.find?_some h
  simpa using this

/-- What is found belongs to the grammar. -/
theorem mem_of_find?_eq_some {g : Grammar} {s : Symbol} {n : NonTerminal}
    (h : g.find? s = some n) : n ∈ g.nonTerminals :=
  List.mem_of_find?_eq_some h

/-- A symbol is declared when some non-terminal bears it. -/
theorem declares_iff {g : Grammar} {s : Symbol} : g.declares s = true ↔ s ∈ g.symbols := by
  simp [declares, find?, symbols, List.find?_isSome]

/-- The rules are the alternatives of the non-terminals. -/
theorem mem_rules {g : Grammar} {r : Rule} :
    r ∈ g.rules ↔ ∃ n ∈ g.nonTerminals, n.symbol = r.head ∧ r.body ∈ n.alternatives := by
  simp only [rules, NonTerminal.rules, List.mem_flatMap, List.mem_map]
  constructor
  · rintro ⟨n, hn, body, hbody, rfl⟩
    exact ⟨n, hn, rfl, hbody⟩
  · rintro ⟨n, hn, hsymbol, hbody⟩
    exact ⟨n, hn, r.body, hbody, by rw [hsymbol]⟩

end Grammar

end LL1
