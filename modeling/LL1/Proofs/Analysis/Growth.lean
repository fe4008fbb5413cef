/-
# Sets that grow until they settle

A pass over a grammar only ever adds members to sets. A family that is not changed by a pass is not
changed by any step of the pass, and since the sets stay within an alphabet, such a family is reached
after a number of passes that is known beforehand.
-/
import LL1.Analysis.First

namespace LL1

/-! ## Growing sets -/

namespace SymbolSet

theorem size_insert (a : SymbolSet) (s : Symbol) : a.insert s = a ∨ a.size < (a.insert s).size := by
  by_cases h : s ∈ a
  · exact Or.inl (insert_of_mem h)
  · apply Or.inr
    rw [size, size, toList_insert_of_notMem h, List.length_append, List.length_singleton]
    exact Nat.lt_succ_self _

/-- Inserting symbols adds a member, unless it changes nothing. -/
theorem size_insertAll (a : SymbolSet) (l : List Symbol) :
    a.insertAll l = a ∨ a.size < (a.insertAll l).size := by
  induction l generalizing a with
  | nil => exact Or.inl rfl
  | cons s rest ih =>
    show (a.insert s).insertAll rest = a ∨ a.size < ((a.insert s).insertAll rest).size
    rcases ih (a.insert s) with hrest | hrest
    · rw [hrest]
      exact size_insert a s
    · rcases size_insert a s with hs | hs
      · rw [hs] at hrest ⊢
        exact Or.inr hrest
      · exact Or.inr (Nat.lt_trans hs hrest)

end SymbolSet

/-! ## Growing families -/

namespace SetFamily

/-- The listed symbols. -/
def symbols (f : SetFamily) : List Symbol :=
  f.entries.map Prod.fst

/-- The number of members of the sets in a list. -/
def total : List (Symbol × SymbolSet) → Nat
  | [] => 0
  | e :: rest => e.2.size + total rest

/-- The number of members of all sets together. -/
def size (f : SetFamily) : Nat :=
  total f.entries

/-- Whether one family grows into another: no set loses a member, and unless nothing changes the
number of members goes up. -/
structure Below (f h : SetFamily) : Prop where
  /-- No member is lost. -/
  subset : ∀ s t, t ∈ f.get s → t ∈ h.get s
  /-- A change adds members. -/
  eq_or_lt : f = h ∨ f.size < h.size

variable {f h k : SetFamily} {s t u : Symbol} {members : List Symbol}

theorem Below.refl (f : SetFamily) : f.Below f :=
  ⟨fun _ _ ht => ht, Or.inl rfl⟩

theorem Below.trans (hfh : f.Below h) (hhk : h.Below k) : f.Below k := by
  refine ⟨fun s t ht => hhk.subset s t (hfh.subset s t ht), ?_⟩
  rcases hfh.eq_or_lt with rfl | hlt
  · exact hhk.eq_or_lt
  · rcases hhk.eq_or_lt with rfl | hlt'
    · exact Or.inr hlt
    · exact Or.inr (Nat.lt_trans hlt hlt')

/-- Two families that grow into each other are the same. -/
theorem Below.antisymm (hfh : f.Below h) (hhf : h.Below f) : f = h := by
  rcases hfh.eq_or_lt with heq | hlt
  · exact heq
  · rcases hhf.eq_or_lt with heq | hlt'
    · exact heq.symm
    · omega

/-- Extending lists no further symbol. -/
theorem symbols_extend (f : SetFamily) (s : Symbol) (members : List Symbol) :
    (f.extend s members).symbols = f.symbols := by
  unfold extend
  split
  · rfl
  · rw [symbols, symbols, List.map_map]
    refine List.map_congr_left fun e _ => ?_
    dsimp only [Function.comp]
    split <;> rfl

theorem symbols_empty (l : List Symbol) : (empty l).symbols = l := by
  rw [symbols, empty, List.map_map]
  exact List.map_id _

theorem mem_symbols_of_mem_get (ht : t ∈ f.get s) : s ∈ f.symbols := by
  unfold get at ht
  split at ht
  · next a ha =>
    obtain ⟨e, he, hes⟩ := List.lookup_isSome_iff.1 (Option.isSome_iff_exists.2 ⟨a, ha⟩)
    rw [beq_iff_eq] at hes
    exact hes ▸ List.mem_map_of_mem he
  · exact absurd ht (SymbolSet.notMem_empty t)

/-- The set of a symbol after an extension. -/
theorem mem_get_extend (hs : s ∈ f.symbols) :
    t ∈ (f.extend s members).get u ↔ t ∈ f.get u ∨ u = s ∧ t ∈ members := by
  by_cases hu : u = s
  · subst hu
    obtain ⟨a, ha⟩ : ∃ a, f.entries.lookup u = some a := by
      obtain ⟨e, he, rfl⟩ := List.mem_map.1 hs
      exact Option.isSome_iff_exists.1 (List.lookup_isSome_iff.2 ⟨e, he, by simp⟩)
    rw [get_extend_self ha, SymbolSet.mem_insertAll]
    simp
  · rw [get_extend_of_ne f hu]
    simp [hu]

/-- If each set of a list stays or grows, the list stays or its number of members goes up. -/
theorem total_map {next : Symbol × SymbolSet → Symbol × SymbolSet}
    (h : ∀ e, next e = e ∨ e.2.size < (next e).2.size) (l : List (Symbol × SymbolSet)) :
    l.map next = l ∨ total l < total (l.map next) := by
  induction l with
  | nil => exact Or.inl rfl
  | cons e rest ih =>
    rw [List.map_cons, total, total]
    rcases h e with hfirst | hfirst
    · rw [hfirst]
      rcases ih with heq | hlt
      · exact Or.inl (congrArg (e :: ·) heq)
      · exact Or.inr (by omega)
    · apply Or.inr
      rcases ih with heq | hlt
      · rw [heq]
        omega
      · omega

/-- Extending a family makes it grow. -/
theorem below_extend (hs : s ∈ f.symbols) (members : List Symbol) :
    f.Below (f.extend s members) := by
  refine ⟨fun u t ht => (mem_get_extend hs).2 (Or.inl ht), ?_⟩
  unfold extend
  split
  · exact Or.inl rfl
  · refine Or.imp_left (fun heq => ?_) (total_map (fun e => ?_) f.entries)
    · rw [heq]
    · obtain ⟨u, a⟩ := e
      dsimp only
      split
      · exact (SymbolSet.size_insertAll a members).imp_left fun heq => by rw [heq]
      · exact Or.inl rfl

/-- Each listed set is the one that is found, if no symbol is listed twice. -/
theorem get_of_mem_entries (hnodup : f.symbols.Nodup) {e : Symbol × SymbolSet}
    (he : e ∈ f.entries) : f.get e.1 = e.2 := by
  have key : ∀ l : List (Symbol × SymbolSet), (l.map Prod.fst).Nodup → e ∈ l →
      l.lookup e.1 = some e.2 := by
    intro l
    induction l with
    | nil => exact fun _ h => absurd h List.not_mem_nil
    | cons d rest ih =>
      intro hnodup hmem
      rw [List.map_cons, List.nodup_cons] at hnodup
      rw [List.lookup_cons]
      rcases List.mem_cons.1 hmem with rfl | hmem
      · simp
      · have hne : (e.1 == d.1) = false := by
          refine beq_eq_false_iff_ne.2 fun heq => hnodup.1 ?_
          exact heq ▸ List.mem_map_of_mem hmem
        rw [hne]
        exact ih hnodup.2 hmem
  rw [get, key f.entries hnodup he]

/-- The size of a family whose sets stay within an alphabet. -/
theorem size_le {alphabet : List Symbol} (hnodup : f.symbols.Nodup)
    (h : ∀ s t, t ∈ f.get s → t ∈ alphabet) : f.size ≤ f.symbols.length * alphabet.length := by
  have hentry : ∀ e ∈ f.entries, e.2.size ≤ alphabet.length := by
    intro e he
    refine e.2.nodup.length_le_of_subset fun t ht => h e.1 t ?_
    rw [get_of_mem_entries hnodup he]
    exact ht
  have key : ∀ l : List (Symbol × SymbolSet), (∀ e ∈ l, e.2.size ≤ alphabet.length) →
      total l ≤ l.length * alphabet.length := by
    intro l
    induction l with
    | nil => exact fun _ => Nat.zero_le _
    | cons e rest ih =>
      intro hl
      rw [List.forall_mem_cons] at hl
      rw [total, List.length_cons, Nat.succ_mul, Nat.add_comm]
      exact Nat.add_le_add (ih hl.2) hl.1
  rw [symbols, List.length_map]
  exact key f.entries hentry

end SetFamily

/-! ## Passes -/

section Passes

variable {ρ : Type} {step : SetState → ρ → SetState} {I : SetState → Prop} {l : List ρ}

/-- A pass keeps what its steps keep, and the sets grow. -/
theorem below_foldl
    (hstep : ∀ st, ∀ r ∈ l, I st → I (step st r) ∧ st.sets.Below (step st r).sets)
    {st : SetState} (h : I st) :
    I (l.foldl step st) ∧ st.sets.Below (l.foldl step st).sets := by
  induction l generalizing st with
  | nil => exact ⟨h, .refl _⟩
  | cons r rest ih =>
    obtain ⟨hI, hbelow⟩ := hstep st r List.mem_cons_self h
    obtain ⟨hrest, hbelow'⟩ := ih (fun st q hq => hstep st q (List.mem_cons_of_mem r hq)) hI
    exact ⟨hrest, hbelow.trans hbelow'⟩

/-- If a pass changes no set, none of its steps does. -/
theorem unchanged_of_foldl
    (hstep : ∀ st, ∀ r ∈ l, I st → I (step st r) ∧ st.sets.Below (step st r).sets)
    {st : SetState} (h : I st) (hfix : (l.foldl step st).sets = st.sets) :
    ∀ r ∈ l, ∃ st', I st' ∧ st'.sets = st.sets ∧ (step st' r).sets = st.sets := by
  induction l generalizing st with
  | nil => exact fun r hr => absurd hr List.not_mem_nil
  | cons q rest ih =>
    obtain ⟨hI, hbelow⟩ := hstep st q List.mem_cons_self h
    have hrest := fun st r hr => hstep st r (List.mem_cons_of_mem q hr)
    -- the rest of the pass leads back to the sets there were at first
    have hback : (step st q).sets.Below st.sets := by
      have hfold := (below_foldl hrest hI).2
      rwa [show rest.foldl step (step st q) = (q :: rest).foldl step st from rfl, hfix] at hfold
    have hfirst : (step st q).sets = st.sets := hback.antisymm hbelow
    intro r hr
    rcases List.mem_cons.1 hr with rfl | hr
    · exact ⟨st, h, rfl, hfirst⟩
    · obtain ⟨st', hI', hsame, hstep'⟩ := ih hrest hI (hfix.trans hfirst.symm) r hr
      exact ⟨st', hI', hsame.trans hfirst, hstep'.trans hfirst⟩

end Passes

/-! ## Settling -/

/-- If every pass that changes something brings a bounded measure up, the passes settle within the
bound, in a state that the last pass found unchanged. -/
theorem exists_settled {σ : Type} {unchanged : σ → σ → Bool} {pass : σ → σ} {I : σ → Prop}
    {measure : σ → Nat} {bound : Nat} (hI : ∀ s, I s → I (pass s))
    (hgrow : ∀ s, I s → unchanged s (pass s) = true ∨ measure s < measure (pass s))
    (hbound : ∀ s, I s → measure s ≤ bound) {limit : Nat} {s : σ} (hs : I s)
    (hlimit : bound < limit + measure s) :
    ∃ r s', untilSettled? unchanged pass limit s = some r ∧ I s' ∧ unchanged s' (pass s') = true ∧
      r.state = pass s' := by
  induction limit generalizing s with
  | zero =>
    have hle := hbound s hs
    omega
  | succ limit ih =>
    unfold untilSettled?
    cases hsame : unchanged s (pass s) with
    | true => exact ⟨_, s, if_pos rfl, hs, hsame, rfl⟩
    | false =>
      have hlt : measure s < measure (pass s) :=
        (hgrow s hs).resolve_left (by rw [hsame]; exact Bool.false_ne_true)
      obtain ⟨r, s', hr, hs', hfix, hstate⟩ := ih (hI s hs) (by omega)
      refine ⟨{ r with passes := r.passes + 1 }, s', ?_, hs', hfix, hstate⟩
      rw [if_neg Bool.false_ne_true, hr]
      rfl

/-- What passes without a limit come to: they are repeated until one of them changes nothing, and
are counted. -/
inductive Settles {σ : Type} (unchanged : σ → σ → Bool) (pass : σ → σ) : σ → Settled σ → Prop where
  /-- The pass changes nothing. It is the last one. -/
  | last {s : σ} (h : unchanged s (pass s) = true) : Settles unchanged pass s ⟨pass s, 1⟩
  /-- The pass changes something, and another one is made. -/
  | more {s : σ} {r : Settled σ} (h : unchanged s (pass s) = false)
    (rest : Settles unchanged pass (pass s) r) :
    Settles unchanged pass s { r with passes := r.passes + 1 }

/-- If the passes settle within a limit, they do so without one. -/
theorem settles_of_untilSettled? {σ : Type} {unchanged : σ → σ → Bool} {pass : σ → σ} {limit : Nat}
    {s : σ} {r : Settled σ} (h : untilSettled? unchanged pass limit s = some r) :
    Settles unchanged pass s r := by
  induction limit generalizing s r with
  | zero => cases h
  | succ limit ih =>
    unfold untilSettled? at h
    cases hsame : unchanged s (pass s) with
    | true =>
      rw [if_pos hsame] at h
      cases h
      exact .last hsame
    | false =>
      rw [if_neg (by rw [hsame]; exact Bool.false_ne_true)] at h
      obtain ⟨q, hq, rfl⟩ := Option.map_eq_some_iff.1 h
      exact .more hsame (ih hq)

section Families

variable {pass : SetState → SetState} {I : SetState → Prop} {bound : Nat}

/-- Passes that only let families grow within a bound settle within one pass more. -/
theorem exists_untilSettled_sets
    (hpass : ∀ st, I st → I (pass st) ∧ st.sets.Below (pass st).sets)
    (hbound : ∀ st, I st → st.sets.size ≤ bound) {st : SetState} (h : I st) :
    ∃ r st', untilSettled? SetState.sameSets pass (bound + 1) st = some r ∧ I st' ∧
      st'.sameSets (pass st') = true ∧ r.state = pass st' := by
  have hgrow : ∀ st, I st →
      st.sameSets (pass st) = true ∨ st.sets.size < (pass st).sets.size := by
    intro st hst
    exact (hpass st hst).2.eq_or_lt.imp_left fun heq => decide_eq_true heq
  exact exists_settled (fun st hst => (hpass st hst).1) hgrow hbound h
    (show bound < bound + 1 + st.sets.size by omega)

/-- They settle in a family that a pass leaves as it is. -/
theorem exists_settled_sets
    (hpass : ∀ st, I st → I (pass st) ∧ st.sets.Below (pass st).sets)
    (hbound : ∀ st, I st → st.sets.size ≤ bound) {st : SetState} (h : I st) :
    ∃ st', I st' ∧ (pass st').sets = st'.sets ∧
      (untilSettled SetState.sameSets pass (bound + 1) st).state = pass st' := by
  obtain ⟨r, st', hr, hst', hfix, hstate⟩ := exists_untilSettled_sets hpass hbound h
  refine ⟨st', hst', (of_decide_eq_true hfix).symm, ?_⟩
  rw [untilSettled, hr]
  exact hstate

/-- The limit makes no difference to them, and it is no smaller than their number. -/
theorem settles_untilSettled_sets
    (hpass : ∀ st, I st → I (pass st) ∧ st.sets.Below (pass st).sets)
    (hbound : ∀ st, I st → st.sets.size ≤ bound) {st : SetState} (h : I st) :
    Settles SetState.sameSets pass st (untilSettled SetState.sameSets pass (bound + 1) st) ∧
      (untilSettled SetState.sameSets pass (bound + 1) st).passes ≤ bound + 1 := by
  obtain ⟨r, -, hr, -⟩ := exists_untilSettled_sets hpass hbound h
  rw [untilSettled, hr]
  exact ⟨settles_of_untilSettled? hr, passes_le_limit hr⟩

end Families

end LL1
