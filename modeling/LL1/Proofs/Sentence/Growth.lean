/-
# Growing trees

A non-terminal that has a tree has an alternative that may be chosen, at every depth, and all symbols
of an alternative that may be chosen have trees. Before the greatest free depth this is all that is
needed. From there on the alternatives that may be chosen have trees one level lower, so the room
that is left for nested expansions suffices. Growth therefore fails at the very first non-terminal or
not at all.
-/
import LL1.Proofs.Sentence.Height
import LL1.Sentence.Growth

namespace LL1

namespace Grammar

variable {σ : Type} {g : Grammar} {h : Heights} {chooser : Chooser σ} {n : NonTerminal} {s : Symbol}
  {w body : Word} {maxDepth depth room k : Nat}

/-! ## Growing words -/

/-- Whatever the state, a tree of the given kind grows from the symbol. -/
def Grows (grow : Symbol → σ → Except GrowthFailure SentenceTree × σ) (P : SentenceTree → Prop)
    (s : Symbol) : Prop :=
  ∀ st, ∃ t st', grow s st = (.ok t, st') ∧ t.root = s ∧ P t

/-- If terminals are trees of a kind, and such trees grow from all other symbols of a word, then such
trees grow from the word. -/
theorem exists_growWord {grow : Symbol → σ → Except GrowthFailure SentenceTree × σ}
    {P : SentenceTree → Prop} (hleaf : ∀ s ∈ w, isTerminal s = true → P (.leaf s))
    (hgrows : ∀ s ∈ w, isTerminal s = false → Grows grow P s) (st : σ) :
    ∃ ts st', growWord grow w st = (.ok ts, st') ∧ ts.map SentenceTree.root = w ∧ ∀ t ∈ ts, P t := by
  induction w generalizing st with
  | nil => exact ⟨[], st, rfl, rfl, fun t ht => absurd ht List.not_mem_nil⟩
  | cons s w ih =>
    rw [List.forall_mem_cons] at hleaf hgrows
    have ih := ih hleaf.2 hgrows.2
    unfold growWord
    cases hs : isTerminal s with
    | true =>
      obtain ⟨ts, st', hrest, hroots, hts⟩ := ih st
      refine ⟨.leaf s :: ts, st', ?_, ?_, List.forall_mem_cons.2 ⟨hleaf.1 hs, hts⟩⟩
      · simp only [if_true, hrest]
      · rw [List.map_cons, hroots, SentenceTree.root]
    | false =>
      obtain ⟨t, st₁, hfirst, rfl, ht⟩ := hgrows.1 hs st
      obtain ⟨ts, st₂, hrest, hroots, hts⟩ := ih st₁
      refine ⟨t :: ts, st₂, ?_, ?_, List.forall_mem_cons.2 ⟨ht, hts⟩⟩
      · simp only [Bool.false_eq_true, if_false, hfirst, hrest]
      · rw [List.map_cons, hroots]

/-! ## Choices -/

/-- The alternatives that may be chosen are those with a height, and from the greatest free depth on the
lowest of them. -/
theorem mem_choices_iff : body ∈ g.choices h maxDepth depth n ↔ body ∈ n.alternatives ∧
    ∃ b, g.bodyHeight h body = some b ∧
      (depth < maxDepth ∨ some b = least? (n.alternatives.filterMap (g.bodyHeight h))) := by
  rw [choices, List.mem_filter]
  cases g.bodyHeight h body <;> simp

/-- Some alternative may be chosen exactly if one has a height. -/
theorem choices_ne_nil_iff : g.choices h maxDepth depth n ≠ [] ↔
    ∃ body ∈ n.alternatives, ∃ b, g.bodyHeight h body = some b := by
  constructor
  · intro hne
    obtain ⟨body, hbody⟩ := List.exists_mem_of_ne_nil _ hne
    obtain ⟨hmem, b, hb, -⟩ := mem_choices_iff.1 hbody
    exact ⟨body, hmem, b, hb⟩
  · rintro ⟨body, hmem, b, hb⟩
    obtain ⟨least, -, hleast⟩ :=
      exists_least?_bodyHeight_le_iff.2 ⟨body, hmem, b, Nat.le_refl b, hb⟩
    -- the least height is that of some alternative
    obtain ⟨low, hlow, c, hle, hc⟩ :=
      exists_least?_bodyHeight_le_iff.1 ⟨least, Nat.le_refl least, hleast⟩
    obtain ⟨least', hle', hleast'⟩ :=
      exists_least?_bodyHeight_le_iff.2 ⟨low, hlow, c, Nat.le_refl c, hc⟩
    obtain rfl := Option.some.inj (hleast.symm.trans hleast')
    obtain rfl := Nat.le_antisymm hle hle'
    exact List.ne_nil_of_mem (mem_choices_iff.2 ⟨hlow, c, hc, Or.inr hleast.symm⟩)

/-- Some alternative of a non-terminal may be chosen, whatever the depth, exactly if the non-terminal
has a tree. -/
theorem Exact.choices_ne_nil_iff (hg : g.WellFormed) (hh : g.Exact h) (hn : n ∈ g.nonTerminals) :
    g.choices h maxDepth depth n ≠ [] ↔ ∃ k, g.TreeWithin k n.symbol := by
  have hd : g.declares n.symbol = true := declares_iff.2 (List.mem_map_of_mem hn)
  rw [Grammar.choices_ne_nil_iff]
  constructor
  · rintro ⟨body, hmem, b, hb⟩
    exact ⟨b, (hh.sound.treeWithin_of_bodyHeight hn hmem ⟨b, Nat.le_refl b, hb⟩).2⟩
  · rintro ⟨k, hs⟩
    obtain ⟨j, -, r, hr, hhead, hbody⟩ := (treeWithin_iff hd).1 hs
    obtain ⟨b, -, hb⟩ := exists_bodyHeight_le_iff.2
      ⟨j, rfl, fun u hu hdu => (hh j u).2 ⟨hdu, hbody u hu⟩⟩
    exact ⟨r.body, (hg.mem_alternatives_iff hn).2 (hhead ▸ hr), b, hb⟩

/-- The symbols of an alternative that may be chosen have trees. -/
theorem Sound.treeWithin_of_mem_choices (hh : g.Sound h)
    (hbody : body ∈ g.choices h maxDepth depth n) :
    ∀ u ∈ body, g.TreeWithin g.nonTerminals.length u := by
  obtain ⟨-, b, hb, -⟩ := mem_choices_iff.1 hbody
  obtain ⟨j, -, hwithin⟩ := exists_bodyHeight_le_iff.1 ⟨b, Nat.le_refl b, hb⟩
  intro u hu
  cases hd : g.declares u with
  | false => exact treeWithin_of_undeclared hd _
  | true => exact (hh j u (hwithin u hu hd)).2.within_length

/-- From the greatest free depth on, the symbols of an alternative that may be chosen have trees below
every tree of the non-terminal. -/
theorem Exact.treeWithin_of_mem_choices (hg : g.WellFormed) (hh : g.Exact h)
    (hn : n ∈ g.nonTerminals) (hdepth : maxDepth ≤ depth)
    (hbody : body ∈ g.choices h maxDepth depth n) (hs : g.TreeWithin (k + 1) n.symbol) :
    ∀ u ∈ body, g.TreeWithin k u := by
  have hd : g.declares n.symbol = true := declares_iff.2 (List.mem_map_of_mem hn)
  obtain ⟨-, b, hb, hlow⟩ := mem_choices_iff.1 hbody
  -- the lowest alternative is no higher than the one at the root of the tree
  have hle : b ≤ k + 1 := by
    obtain ⟨j, hj, r, hr, hhead, hwithin⟩ := (treeWithin_iff hd).1 hs
    obtain rfl := Nat.succ.inj hj
    have hmem : r.body ∈ n.alternatives := (hg.mem_alternatives_iff hn).2 (hhead ▸ hr)
    obtain ⟨least, hle, hleast⟩ := exists_least?_bodyHeight_le_iff.2 ⟨r.body, hmem,
      exists_bodyHeight_le_iff.2 ⟨k, rfl, fun u hu hdu => (hh k u).2 ⟨hdu, hwithin u hu⟩⟩⟩
    rw [← hlow.resolve_left (Nat.not_lt_of_le hdepth)] at hleast
    obtain rfl := Option.some.inj hleast
    exact hle
  obtain ⟨j, hj, hwithin⟩ := exists_bodyHeight_le_iff.1 ⟨b, hle, hb⟩
  obtain rfl := Nat.succ.inj hj
  intro u hu
  cases hdu : g.declares u with
  | false => exact treeWithin_of_undeclared hdu k
  | true => exact ((hh k u).1 (hwithin u hu hdu)).2

/-! ## Room -/

/-- The room that is left suffices for the symbol: before the greatest free depth it is enough to get
there and for as many nested expansions as there are non-terminals, and from there on for some tree. -/
def RoomFor (g : Grammar) (maxDepth depth room : Nat) (s : Symbol) : Prop :=
  g.TreeWithin (room - (maxDepth - depth)) s ∧
    (depth < maxDepth → maxDepth - depth + g.nonTerminals.length ≤ room)

/-- At every depth there is room for a symbol that has a tree, if there is enough to get to the greatest
free depth and for as many nested expansions as there are non-terminals. -/
theorem TreeWithin.roomFor (hs : g.TreeWithin k s)
    (hroom : maxDepth - depth + g.nonTerminals.length ≤ room) : g.RoomFor maxDepth depth room s :=
  ⟨hs.within_length.mono (Nat.le_sub_of_add_le' hroom), fun _ => hroom⟩

/-- Without room there is none for a non-terminal. -/
theorem RoomFor.declares_eq_false (hs : g.RoomFor maxDepth depth 0 s) : g.declares s = false := by
  rw [← Bool.not_eq_true]
  intro hd
  obtain ⟨j, hj, -⟩ := (treeWithin_iff hd).1 hs.1
  rw [Nat.zero_sub] at hj
  cases hj

/-- If there is room for a non-terminal, one level further down there is room for the symbols of whatever
may be chosen. -/
theorem Exact.roomFor_of_mem_choices (hg : g.WellFormed) (hh : g.Exact h)
    (hn : n ∈ g.nonTerminals) (hs : g.RoomFor maxDepth depth (room + 1) n.symbol)
    (hbody : body ∈ g.choices h maxDepth depth n) :
    ∀ u ∈ body, g.RoomFor maxDepth (depth + 1) room u := by
  intro u hu
  by_cases hdepth : depth < maxDepth
  · have hroom := hs.2 hdepth
    exact (hh.sound.treeWithin_of_mem_choices hbody u hu).roomFor (by omega)
  · have hle : maxDepth ≤ depth := Nat.le_of_not_lt hdepth
    have htree : g.TreeWithin (room + 1) n.symbol := hs.1.mono (Nat.sub_le _ _)
    refine ⟨?_, fun hlt => absurd (Nat.lt_of_succ_lt hlt) hdepth⟩
    rw [Nat.sub_eq_zero_of_le (Nat.le_succ_of_le hle), Nat.sub_zero]
    exact hh.treeWithin_of_mem_choices hg hn hle hbody htree u hu

/-! ## Growing trees -/

/-- If something may be chosen, and trees of a kind grow from the symbols of whatever may be chosen, then
the trees that grow are made of such trees. -/
theorem grows_growTree {P Q : SentenceTree → Prop} (hfind : g.find? s = some n)
    (hchoices : g.choices h maxDepth depth n ≠ [])
    (hleaf : ∀ u, isTerminal u = true → P (.leaf u))
    (hgrows : ∀ body ∈ g.choices h maxDepth depth n, ∀ u ∈ body, isTerminal u = false →
      Grows (g.growTree h chooser maxDepth room (depth + 1)) P u)
    (hnode : ∀ children, children.map SentenceTree.root ∈ g.choices h maxDepth depth n →
      (∀ t ∈ children, P t) → Q (.node s children)) :
    Grows (g.growTree h chooser maxDepth (room + 1) depth) Q s := by
  intro st
  have hpos : 0 < (g.choices h maxDepth depth n).length := List.length_pos_iff.2 hchoices
  rw [growTree, hfind]
  rcases hpick : chooser.pick st _ hpos with ⟨i, st₁⟩
  have hmem := List.get_mem (g.choices h maxDepth depth n) i
  obtain ⟨ts, st₂, hgrown, hroots, hts⟩ :=
    exists_growWord (fun u _ => hleaf u) (hgrows _ hmem) st₁
  refine ⟨.node s ts, st₂, ?_, rfl, hnode ts (hroots ▸ hmem) hts⟩
  simp only [hpos, dite_true, hpick, hgrown]

/-- From a non-terminal with a tree a derivation tree grows, if such trees grow from the non-terminals of
whatever may be chosen. -/
theorem Exact.grows_succ (hg : g.WellFormed) (hh : g.Exact h) (hn : n ∈ g.nonTerminals)
    (hs : g.TreeWithin k n.symbol)
    (hgrows : ∀ body ∈ g.choices h maxDepth depth n, ∀ u ∈ body, g.declares u = true →
      Grows (g.growTree h chooser maxDepth room (depth + 1)) g.HasTree u) :
    Grows (g.growTree h chooser maxDepth (room + 1) depth) g.HasTree n.symbol := by
  have hrule : ∀ body ∈ g.choices h maxDepth depth n, ⟨n.symbol, body⟩ ∈ g.rules :=
    fun body hbody => (hg.mem_alternatives_iff hn).1 (mem_choices_iff.1 hbody).1
  refine grows_growTree (P := g.HasTree) (hg.find?_of_mem hn)
    ((hh.choices_ne_nil_iff hg hn).2 ⟨k, hs⟩) (fun u hu => .leaf (hg.declares_eq_false hu))
    (fun body hbody u hu hup => hgrows body hbody u hu ?_)
    fun children hchildren hbelow => .node (hrule _ hchildren) hbelow
  exact hg.declares_of_mem_body (hrule body hbody) hu (isTerminal_eq_false_iff.1 hup)

/-- A derivation tree grows from a non-terminal if there is room for it. -/
theorem Exact.grows (hg : g.WellFormed) (hh : g.Exact h) (hd : g.declares s = true)
    (hs : g.RoomFor maxDepth depth room s) :
    Grows (g.growTree h chooser maxDepth room depth) g.HasTree s := by
  induction room generalizing depth s with
  | zero =>
    rw [hs.declares_eq_false] at hd
    cases hd
  | succ room ih =>
    obtain ⟨n, hn, rfl⟩ := List.mem_map.1 (declares_iff.1 hd)
    refine hh.grows_succ hg hn hs.1 fun body hbody u hu hdu => ?_
    exact ih hdu (hh.roomFor_of_mem_choices hg hn hs hbody u hu)

/-! ## Failures -/

/-- Nothing grows from a symbol that is not declared. -/
theorem growTree_of_undeclared (hs : g.declares s = false) (st : σ) :
    g.growTree h chooser maxDepth (room + 1) depth s st = (.error (.undefined s), st) := by
  rw [growTree, Option.not_isSome_iff_eq_none.1 (Bool.eq_false_iff.1 hs)]

/-- Nothing grows from a non-terminal if nothing may be chosen. -/
theorem growTree_of_choices_eq_nil (hfind : g.find? s = some n)
    (hchoices : g.choices h maxDepth depth n = []) (st : σ) :
    g.growTree h chooser maxDepth (room + 1) depth s st =
      (.error (.noTerminatingAlternative s), st) := by
  rw [growTree, hfind]
  simp [hchoices]

/-- Growing from a symbol fails at once, because the symbol is not declared or because it has no tree,
or a derivation tree grows. -/
theorem grow_cases (hg : g.WellFormed) (chooser : Chooser σ) (maxDepth : Nat) (s : Symbol) (st : σ) :
    (g.declares s = false ∧ g.grow chooser maxDepth s st = (.error (.undefined s), st)) ∨
    (g.declares s = true ∧ ¬ g.Productive s ∧
      (∀ n, g.find? s = some n → g.choices g.heights maxDepth 0 n = []) ∧
      g.grow chooser maxDepth s st = (.error (.noTerminatingAlternative s), st)) ∨
    (g.declares s = true ∧ g.Productive s ∧
      ∃ t st', g.grow chooser maxDepth s st = (.ok t, st') ∧ t.root = s ∧ g.HasTree t) := by
  have hexact := exact_heights g
  cases hd : g.declares s with
  | false => exact Or.inl ⟨rfl, growTree_of_undeclared hd st⟩
  | true =>
    refine Or.inr ?_
    by_cases hproductive : g.Productive s
    · have htree := (productive_iff_treeWithin hg hd).1 hproductive
      exact Or.inr ⟨rfl, hproductive, hexact.grows hg hd (htree.roomFor (by omega)) st⟩
    · have hnone : ∀ n, g.find? s = some n → g.choices g.heights maxDepth 0 n = [] := by
        intro n hfind
        obtain rfl := symbol_of_find?_eq_some hfind
        by_contra hne
        obtain ⟨k, htree⟩ := (hexact.choices_ne_nil_iff hg (mem_of_find?_eq_some hfind)).1 hne
        exact hproductive ((productive_iff_treeWithin hg hd).2 htree.within_length)
      obtain ⟨n, hfind⟩ := Option.isSome_iff_exists.1 hd
      exact Or.inl ⟨rfl, hproductive, hnone, growTree_of_choices_eq_nil hfind (hnone n hfind) st⟩

end Grammar

end LL1
