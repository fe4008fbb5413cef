/-
# Stored grammars

A grammar is stored as a map from symbols to heads, the list of the symbols in order of declaration,
and the terminal alphabet. Each of the three could be wrong about the others, so whatever changes the
heads also has to change the list and the alphabet. What is computed from a stored grammar is computed
from its heads in order of declaration.
-/
import LL1.Source.Loading
import LL1.Store.Head
import LL1.Workspace.Basic

namespace LL1

/-- A grammar as it is stored, with what is known about it. -/
structure Store where
  /-- The heads under their symbols. -/
  heads : HeadMap
  /-- The symbols in order of declaration, of which the first is the start symbol. -/
  nonTerminals : List Symbol
  /-- The terminal alphabet. -/
  terminals : SymbolSet
  /-- The marks of the rules. -/
  memo : Memo := {}
  /-- The table, and the conflicts met while filling it. -/
  prediction : Prediction := {}
  deriving Repr

namespace Store

/-! ## Reading the heads in order -/

/-- The heads in order of declaration. A symbol without a head is passed over. -/
def orderedHeads (s : Store) : List Head :=
  s.nonTerminals.filterMap s.heads.get?

/-- The non-terminals in order of declaration. -/
def grammar (s : Store) : Grammar :=
  ⟨s.orderedHeads.map Head.toNonTerminal⟩

/-- The FIRST sets that are stored with the heads. -/
def first (s : Store) : SetFamily :=
  ⟨s.orderedHeads.map fun h => (h.symbol, h.first)⟩

/-- The FOLLOW sets that are stored with the heads. -/
def follow (s : Store) : SetFamily :=
  ⟨s.orderedHeads.map fun h => (h.symbol, h.follow)⟩

/-- The stored grammar as it is read by what only needs the heads in order. -/
def workspace (s : Store) : Workspace where
  grammar := s.grammar
  memo := s.memo
  first := s.first
  follow := s.follow
  prediction := s.prediction

/-! ## Storing a grammar -/

/-- Goes through all right-hand sides for the terminal alphabet. -/
def refreshTerminals (s : Store) : Store :=
  { s with terminals := s.grammar.terminals }

/-- Stores heads that are given in order of declaration. -/
def ofHeads (heads : List Head) : Store :=
  refreshTerminals
    { heads := .ofHeads heads
      nonTerminals := heads.map fun h => h.symbol
      terminals := ∅ }

/-- Stores a grammar about which nothing is known yet. -/
def ofGrammar (g : Grammar) : Store :=
  ofHeads (g.nonTerminals.map Head.ofNonTerminal)

/-- Stores the grammar that is loaded from lines in memory. -/
def ofLines (lines : List (List Char)) : Except (List LocatedFault) Store :=
  (Grammar.ofLines lines).map ofGrammar

/-- Stores the grammar that is loaded from a file. -/
def ofFile (path : String) (contents : Except ReadFailure (List UInt8)) :
    Except (List LocatedFault) Store :=
  (Grammar.ofFile path contents).map ofGrammar

/-! ## Looking things up -/

/-- The start symbol. A stored grammar without non-terminals starts with the empty word. -/
def start (s : Store) : Symbol :=
  s.nonTerminals.headD epsilon

/-- Whether a symbol is a non-terminal of the grammar. -/
def isNonTerminal (s : Store) (a : Symbol) : Bool :=
  isUppercase a && s.heads.contains a

/-- The right-hand side of the rule at a position. -/
def body? (s : Store) (id : RuleId) : Option Word :=
  match s.heads.get? id.head with
  | none => none
  | some h => h.alternatives[id.index]?

/-! ## Showing a table -/

/-- The rule in a cell of a table as text, if the cell is filled. -/
def entryText (s : Store) (t : Table) (nonTerminal terminal : Symbol) : Option (List Char) :=
  match t.find? nonTerminal terminal with
  | none => none
  | some id => (s.body? id).map fun body => (Rule.mk nonTerminal body).text

/-- A table as rows of text: the stored terminals, and then a row for each stored non-terminal. Cells
that are not filled are empty. -/
def grid (s : Store) (t : Table) : List (List (List Char)) :=
  ([] :: s.terminals.toList.map fun a => [a]) ::
    s.nonTerminals.map fun n =>
      [n] :: s.terminals.toList.map fun a => (s.entryText t n a).getD []

end Store

end LL1
