/-
# How deep trees grow

A tree that grows is a derivation tree, and from the greatest free depth on all its subtrees are of
least height. So the tree is no higher than the free depths and the non-terminals together. The
amount of room hides nothing: whatever is done below that depth, the same tree grows.
-/
import LL1.Proofs.Sentence.Growth

namespace LL1

/-! ## Subtrees -/

namespace SentenceTree

/-- A tree is part of another one, with its root so many levels below the other root. -/
inductive SubtreeAt : Nat → SentenceTree → SentenceTree → Prop where
  /-- A tree is part of itself. -/
  | root (t : SentenceTree) : SubtreeAt 0 t t
  /-- What is part of a child is part of the tree, one level further down. -/
  | child {level : Nat} {u t : SentenceTree} {s : Symbol} {children : List SentenceTree}
    (ht : t ∈ children) (h : SubtreeAt level u t) : SubtreeAt (level + 1) u (node s children)

variable {t u : SentenceTree} {level k : Nat}

/-- A tree is no higher than a level and the subtrees at that level together. -/
theorem height_le_of_subtreeAt (h : ∀ u, SubtreeAt level u t → u.height ≤ k) :
    t.height ≤ level + k := by
  induction level generalizing t with
  | zero => exact Nat.le_add_left_of_le (h t (.root t))
  | succ level ih =>
    cases t with
    | leaf s => exact Nat.zero_le _
    | node s children =>
      rw [height, Nat.add_right_comm]
      refine Nat.succ_le_succ (heights_le_iff.2 fun c hc => ih fun u hu => ?_)
      exact h u (.child hc hu)

end SentenceTree

namespace Grammar

open SentenceTree

variable {σ : Type} {g : Grammar} {h : Heights} {chooser : Chooser σ} {s : Symbol}
  {t : SentenceTree} {maxDepth depth room k level : Nat} {st st' : σ}

/-! ## Lowest trees -/

/-- A tree is a lowest one exactly if its symbol has no tree within fewer levels. -/
theorem HasTree.isLowest_iff (ht : g.HasTree t) :
    g.IsLowest t ↔ ∀ k, g.TreeWithin k t.root → t.height ≤ k := by
  constructor
  · rintro ⟨-, hlow⟩ k ⟨u, hu, hroot, hheight⟩
    exact Nat.le_trans (hlow u hu hroot) hheight
  · exact fun hlow => ⟨ht, fun u hu hroot => hlow u.height ⟨u, hu, hroot, Nat.le_refl _⟩⟩

/-- A lowest tree is no higher than there are non-terminals. -/
theorem IsLowest.height_le (ht : g.IsLowest t) : t.height ≤ g.nonTerminals.length := by
  have hwithin : g.TreeWithin t.height t.root := ⟨t, ht.1, rfl, Nat.le_refl _⟩
  exact ht.1.isLowest_iff.1 ht _ hwithin.within_length

/-- A leaf is as low as can be. -/
theorem isLowest_leaf (hs : g.declares s = false) : g.IsLowest (.leaf s) :=
  ⟨.leaf hs, fun _ _ _ => Nat.zero_le _⟩

/-- Exact heights are those of the lowest trees. -/
theorem Exact.get?_eq_some_iff (hh : g.Exact h) :
    h.get? s = some k ↔ g.declares s = true ∧ ∃ t, g.IsLowest t ∧ t.root = s ∧ t.height = k := by
  constructor
  · intro hget
    have hwithin : ∀ c, k ≤ c ↔ g.declares s = true ∧ g.TreeWithin c s := fun c => by
      rw [← hh c s, Heights.within_iff_of_get? hget]
    obtain ⟨hd, t, ht, hroot, hheight⟩ := (hwithin k).1 (Nat.le_refl k)
    have hlow : ∀ c, g.TreeWithin c t.root → k ≤ c := fun c hc => (hwithin c).2 ⟨hd, hroot ▸ hc⟩
    refine ⟨hd, t, ht.isLowest_iff.2 fun c hc => Nat.le_trans hheight (hlow c hc), hroot, ?_⟩
    exact Nat.le_antisymm hheight (hlow _ ⟨t, ht, rfl, Nat.le_refl _⟩)
  · rintro ⟨hd, t, ht, rfl, rfl⟩
    obtain ⟨a, hle, hget⟩ := (hh t.height t.root).2 ⟨hd, t, ht.1, rfl, Nat.le_refl _⟩
    have hwithin := ((hh a t.root).1 ⟨a, Nat.le_refl a, hget⟩).2
    rw [hget, Nat.le_antisymm hle (ht.1.isLowest_iff.1 ht a hwithin)]

/-- The symbols with exact heights are the non-terminals that derive a terminal string. -/
theorem Exact.isSome_get?_iff (hg : g.WellFormed) (hh : g.Exact h) :
    (h.get? s).isSome = true ↔ g.declares s = true ∧ g.Productive s := by
  constructor
  · intro hsome
    obtain ⟨a, hget⟩ := Option.isSome_iff_exists.1 hsome
    obtain ⟨hd, hwithin⟩ := (hh a s).1 ⟨a, Nat.le_refl a, hget⟩
    exact ⟨hd, (productive_iff_treeWithin hg hd).2 hwithin.within_length⟩
  · rintro ⟨hd, hproductive⟩
    obtain ⟨a, -, hget⟩ := (hh _ s).2 ⟨hd, (productive_iff_treeWithin hg hd).1 hproductive⟩
    rw [hget, Option.isSome_some]

/-! ## What has grown -/

/-- Trees that grew from a word have its symbols at their roots. They are leaves for the terminals, and
grew from the other symbols. -/
theorem growWord_cases {grow : Symbol → σ → Except GrowthFailure SentenceTree × σ} {w : Word}
    {ts : List SentenceTree} (hroot : ∀ s st t st', grow s st = (.ok t, st') → t.root = s)
    (hgrown : growWord grow w st = (.ok ts, st')) :
    ts.map root = w ∧ ∀ t ∈ ts, isTerminal t.root = true ∧ t = .leaf t.root ∨
      ∃ st₁ st₂, grow t.root st₁ = (.ok t, st₂) := by
  induction w generalizing ts st with
  | nil =>
    cases hgrown
    exact ⟨rfl, fun t ht => absurd ht List.not_mem_nil⟩
  | cons s w ih =>
    unfold growWord at hgrown
    split at hgrown
    · next hs =>
      split at hgrown
      · next rest _ hrest =>
        cases hgrown
        obtain ⟨rfl, hall⟩ := ih hrest
        exact ⟨rfl, List.forall_mem_cons.2 ⟨Or.inl ⟨hs, rfl⟩, hall⟩⟩
      · cases hgrown
    · split at hgrown
      · cases hgrown
      · next t st₁ hfirst =>
        obtain rfl := hroot s st t st₁ hfirst
        split at hgrown
        · next rest _ hrest =>
          cases hgrown
          obtain ⟨rfl, hall⟩ := ih hrest
          exact ⟨rfl, List.forall_mem_cons.2 ⟨Or.inr ⟨st, st₁, hfirst⟩, hall⟩⟩
        · cases hgrown

/-- A tree that grew is a node: its children grew from an alternative that could be chosen. -/
theorem growTree_cases (hgrown : g.growTree h chooser maxDepth room depth s st = (.ok t, st')) :
    ∃ r n children st₁, room = r + 1 ∧ g.find? s = some n ∧ t = .node s children ∧
      ∃ body ∈ g.choices h maxDepth depth n,
        growWord (g.growTree h chooser maxDepth r (depth + 1)) body st₁ = (.ok children, st') := by
  cases room with
  | zero => cases hgrown
  | succ r =>
    rw [growTree] at hgrown
    split at hgrown
    · cases hgrown
    · next n hfind =>
      dsimp only at hgrown
      split at hgrown
      · split at hgrown
        · next children _ hchildren =>
          cases hgrown
          exact ⟨r, n, children, _, rfl, hfind, rfl, _, List.get_mem _ _, hchildren⟩
        · cases hgrown
      · cases hgrown

/-- What grew from a symbol has the symbol at its root. -/
theorem root_of_growTree (hgrown : g.growTree h chooser maxDepth room depth s st = (.ok t, st')) :
    t.root = s := by
  obtain ⟨_, _, _, _, _, _, rfl, _⟩ := growTree_cases hgrown
  rfl

/-- From a level on, all subtrees are of least height. -/
def LowestFrom (g : Grammar) (level : Nat) (t : SentenceTree) : Prop :=
  ∀ d u, SubtreeAt d u t → level ≤ d → g.IsLowest u

/-- A leaf is lowest from any level on. -/
theorem lowestFrom_leaf (hs : g.declares s = false) : g.LowestFrom level (.leaf s) := by
  intro d u hu _
  cases hu with
  | root => exact isLowest_leaf hs

/-- A node whose children are lowest from a level on is lowest from the next level on, if at the root
level it is lowest itself. -/
theorem lowestFrom_node {children : List SentenceTree}
    (hroot : level = 0 → g.IsLowest (.node s children))
    (hbelow : ∀ t ∈ children, g.LowestFrom (level - 1) t) :
    g.LowestFrom level (.node s children) := by
  intro d u hu hd
  cases hu with
  | root => exact hroot (Nat.le_zero.1 hd)
  | child ht h => exact hbelow _ ht _ u h (Nat.sub_le_of_le_add hd)

/-- A tree that grew is a derivation tree, and from the greatest free depth on its subtrees are of
least height. -/
theorem Exact.lowestFrom_of_growTree (hg : g.WellFormed) (hh : g.Exact h)
    (hgrown : g.growTree h chooser maxDepth room depth s st = (.ok t, st')) :
    g.HasTree t ∧ g.LowestFrom (maxDepth - depth) t := by
  induction room generalizing depth s st st' t with
  | zero => cases hgrown
  | succ room ih =>
    obtain ⟨r, n, children, st₁, hroom, hfind, rfl, body, hbody, hchildren⟩ := growTree_cases hgrown
    obtain rfl := Nat.succ.inj hroom
    have hn := mem_of_find?_eq_some hfind
    obtain rfl := symbol_of_find?_eq_some hfind
    obtain ⟨rfl, hall⟩ := growWord_cases (fun _ _ _ _ => root_of_growTree) hchildren
    have hrule := (hg.mem_alternatives_iff hn).1 (mem_choices_iff.1 hbody).1
    have hbelow : ∀ t ∈ children, g.HasTree t ∧ g.LowestFrom (maxDepth - (depth + 1)) t := by
      intro t ht
      rcases hall t ht with ⟨hterminal, hleaf⟩ | ⟨_, _, hgrown⟩
      · have hd := hg.declares_eq_false hterminal
        rw [hleaf]
        exact ⟨.leaf hd, lowestFrom_leaf hd⟩
      · exact ih hgrown
    have htree : g.HasTree (.node n.symbol children) := .node hrule fun t ht => (hbelow t ht).1
    refine ⟨htree, lowestFrom_node (fun hlevel => ?_) fun t ht => (hbelow t ht).2⟩
    -- the alternative has been one of the lowest, and its symbols have their lowest trees
    have hdepth : maxDepth ≤ depth := Nat.sub_eq_zero_iff_le.1 hlevel
    refine htree.isLowest_iff.2 fun k hk => ?_
    obtain ⟨j, rfl, -⟩ := (treeWithin_iff (declares_of_mem_rules hrule)).1 hk
    refine Nat.succ_le_succ (heights_le_iff.2 fun t ht => ?_)
    have hlow : g.IsLowest t := (hbelow t ht).2 0 t (.root t) (by omega)
    exact hlow.1.isLowest_iff.1 hlow j
      (hh.treeWithin_of_mem_choices hg hn hdepth hbody hk t.root (List.mem_map_of_mem ht))

/-- A tree that grew is no higher than the free depths and the non-terminals together. -/
theorem LowestFrom.height_le (ht : g.LowestFrom level t) :
    t.height ≤ level + g.nonTerminals.length :=
  height_le_of_subtreeAt fun u hu => (ht level u hu (Nat.le_refl level)).height_le

/-! ## Nested expansions -/

/-- One expansion: an alternative of the symbol is chosen, and its symbols grow in the given way. -/
def expand (g : Grammar) (h : Heights) (chooser : Chooser σ) (maxDepth depth : Nat)
    (grow : Symbol → σ → Except GrowthFailure SentenceTree × σ) (s : Symbol) (st : σ) :
    Except GrowthFailure SentenceTree × σ :=
  match g.find? s with
  | none => (.error (.undefined s), st)
  | some n =>
    let bodies := g.choices h maxDepth depth n
    if some_choice : 0 < bodies.length then
      match chooser.pick st bodies.length some_choice with
      | (i, st) =>
        match growWord grow (bodies.get i) st with
        | (.ok trees, st) => (.ok (.node s trees), st)
        | (.error e, st) => (.error e, st)
    else (.error (.noTerminatingAlternative s), st)

/-- As long as there is room, growing a tree is one expansion whose symbols grow one level further down.
-/
theorem growTree_succ : g.growTree h chooser maxDepth (room + 1) depth =
    g.expand h chooser maxDepth depth (g.growTree h chooser maxDepth room (depth + 1)) :=
  rfl

/-- How a word grows depends on its non-terminals only. -/
theorem growWord_congr {grow grow' : Symbol → σ → Except GrowthFailure SentenceTree × σ} {w : Word}
    (hsame : ∀ s ∈ w, isTerminal s = false → grow s = grow' s) :
    growWord grow w = growWord grow' w := by
  funext st
  induction w generalizing st with
  | nil => rfl
  | cons s w ih =>
    rw [List.forall_mem_cons] at hsame
    have hrest := funext (ih hsame.2)
    unfold growWord
    rw [hrest]
    cases hs : isTerminal s with
    | true => rfl
    | false => rw [hsame.1 hs]

/-- How a symbol is expanded depends on the non-terminals of what may be chosen only. -/
theorem expand_congr {grow grow' : Symbol → σ → Except GrowthFailure SentenceTree × σ}
    (hsame : ∀ n, g.find? s = some n → ∀ body ∈ g.choices h maxDepth depth n,
      ∀ u ∈ body, isTerminal u = false → grow u = grow' u) :
    g.expand h chooser maxDepth depth grow s = g.expand h chooser maxDepth depth grow' s := by
  funext st
  unfold expand
  cases hfind : g.find? s with
  | none => rfl
  | some n =>
    dsimp only
    split
    · rw [growWord_congr (hsame n hfind _ (List.get_mem _ _))]
    · rfl

/-- Whether a way of growing expands its symbols at all depths below the given one. What it does from
that depth on is left open. -/
def ExpandsAbove (g : Grammar) (h : Heights) (chooser : Chooser σ) (maxDepth limit : Nat)
    (grow : Nat → Symbol → σ → Except GrowthFailure SentenceTree × σ) : Prop :=
  ∀ depth < limit, grow depth = g.expand h chooser maxDepth depth (grow (depth + 1))

/-- Growing with room for as many nested expansions is such a way. -/
theorem expandsAbove_growTree (limit : Nat) : g.ExpandsAbove h chooser maxDepth limit
    fun depth => g.growTree h chooser maxDepth (limit - depth) depth := by
  intro depth hdepth
  show g.growTree h chooser maxDepth (limit - depth) depth = _
  rw [← growTree_succ, Nat.sub_add_eq, Nat.sub_add_cancel (Nat.sub_pos_of_lt hdepth)]

/-- If there is room for a symbol, then nothing is expanded any deeper. -/
theorem Exact.growTree_eq (hg : g.WellFormed) (hh : g.Exact h)
    {grow : Nat → Symbol → σ → Except GrowthFailure SentenceTree × σ} {limit : Nat}
    (hgrow : g.ExpandsAbove h chooser maxDepth limit grow) (hd : g.declares s = true)
    (hs : g.RoomFor maxDepth depth room s) (hlimit : depth + room ≤ limit) (more : Nat) :
    grow depth s = g.growTree h chooser maxDepth (room + more) depth s := by
  induction room generalizing depth s with
  | zero =>
    rw [hs.declares_eq_false] at hd
    cases hd
  | succ room ih =>
    rw [hgrow depth (by omega), Nat.add_right_comm, growTree_succ]
    refine expand_congr fun n hfind body hbody u hu hup => ?_
    have hn := mem_of_find?_eq_some hfind
    obtain rfl := symbol_of_find?_eq_some hfind
    have hdu : g.declares u = true :=
      hg.declares_of_mem_body ((hg.mem_alternatives_iff hn).1 (mem_choices_iff.1 hbody).1) hu
        (isTerminal_eq_false_iff.1 hup)
    exact ih hdu (hh.roomFor_of_mem_choices hg hn hs hbody u hu) (by omega)

/-- Expansions are nested no deeper than the greatest free depth and the number of non-terminals
together: whatever would be done from there on, the same grows. -/
theorem grow_eq_of_expandsAbove (hg : g.WellFormed)
    {grow : Nat → Symbol → σ → Except GrowthFailure SentenceTree × σ}
    (hgrow : g.ExpandsAbove g.heights chooser maxDepth (maxDepth + g.nonTerminals.length) grow) :
    grow 0 s st = g.grow chooser maxDepth s st := by
  have hexact := exact_heights g
  have hpos : 0 < g.nonTerminals.length := List.length_pos_iff.2 hg.nonTerminals_ne_nil
  refine congrFun ?_ st
  by_cases hproductive : g.declares s = true ∧ g.Productive s
  · obtain ⟨hd, hproductive⟩ := hproductive
    have htree := (productive_iff_treeWithin hg hd).1 hproductive
    exact hexact.growTree_eq hg hgrow hd (htree.roomFor (by omega)) (by omega) 1
  · -- nothing may be chosen, so the expansion at the root is the only one
    rw [hgrow 0 (by omega)]
    refine expand_congr fun n hfind body hbody => absurd ?_ hproductive
    obtain rfl := symbol_of_find?_eq_some hfind
    have hn := mem_of_find?_eq_some hfind
    have hd : g.declares n.symbol = true := declares_iff.2 (List.mem_map_of_mem hn)
    obtain ⟨k, htree⟩ := (hexact.choices_ne_nil_iff hg hn).1 (List.ne_nil_of_mem hbody)
    exact ⟨hd, (productive_iff_treeWithin hg hd).2 htree.within_length⟩

end Grammar

end LL1
