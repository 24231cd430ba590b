import DarkStd.Sync.Deadlock

/-!
# What comparisons and writes have left to do

The rank of a state is compared lexicographically: what the writers have left to
do, then the stages of the comparisons and what they have left to read, then the
reads that are being opened, last the running scans. A raised flag sets reads
back, so it comes before them; a comparison that goes on calls a read.
-/

namespace DarkStd.Sync

open DarkStd.Semantics

namespace Comparison

variable {Index V : Type}

/-- How many stages a comparison has left. -/
def stagesLeft : Comparison Index V → Nat
  | .idle => 0
  | .dropped .. => 1
  | .decided .. => 2
  | .elements .. => 3
  | .lengths .. => 4
  | .second .. => 5
  | .held .. => 6
  | .first .. => 7

/-- How much of the slices the present stage has left to read. -/
def slicesLeft : Comparison Index V → Nat
  | .lengths _ _ _ _ none => 1
  | .elements _ _ _ _ length next none => 2 * (length - next) + 1
  | .elements _ _ _ _ length next (some _) => 2 * (length - next)
  | _ => 0

/-- Reading on is progress. -/
theorem Visits.progress {eq : V → V → Bool} {contents : Index → List V}
    {phase next : Comparison Index V} (visits : Visits eq contents phase next)
    (agrees : phase.Agrees eq contents) : next.stagesLeft < phase.stagesLeft ∨
      (next.stagesLeft = phase.stagesLeft ∧ next.slicesLeft < phase.slicesLeft) := by
  cases visits with
  | length => exact .inr ⟨rfl, Nat.zero_lt_one⟩
  | sameLength | otherLength | finish | otherElement => exact .inl (by simp [stagesLeft])
  | element => exact .inr ⟨rfl, Nat.lt_succ_self _⟩
  | @sameElement self other left right length next v u loaded same =>
      obtain ⟨mine, its, -, -⟩ := agrees
      obtain ⟨below, -⟩ := List.getElem?_eq_some_iff.mp loaded
      refine .inr ⟨rfl, ?_⟩
      simp only [slicesLeft]
      omega

end Comparison

namespace State

variable {Thread : Type} [DecidableEq Thread] {w : Nat} {kind : Kind}
variable {s next : State Thread w} {t : Thread}

/-- How far a read is from opening its section, or from standing clear of a
flag that is up. -/
def openRank (up : Bool) : Pc → Nat
  | .slot _ => 7
  | .register _ => 6
  | .push _ => 5
  | .release _ _ => 4
  | .load _ _ => if up then 4 else 1
  | .backOff _ _ => 3
  | .add _ _ => 2
  | _ => 0

/-- A step of a method brings its return closer, unless a reader enters under a
raised flag or a scan fails. -/
theorem Moves.closer (move : Moves kind s (.step t) next)
    (enters : ∀ call count, s.pc t = .add call count → s.writing = false)
    (zero : ∀ call position counter, s.pc t = .scan call position →
      s.registry[position]? = some counter → counter = 0) :
    writeRank (next.pc t) < writeRank (s.pc t) ∨
      (writeRank (next.pc t) = writeRank (s.pc t) ∧ next.writing = s.writing ∧
        (openRank s.writing (next.pc t) < openRank s.writing (s.pc t) ∨
          (openRank s.writing (next.pc t) = openRank s.writing (s.pc t) ∧
            next.registry.length = s.registry.length ∧
            scanLeft s.registry.length (next.pc t) < scanLeft s.registry.length (s.pc t)))) := by
  cases move with
  | @scanZero u call position here loaded =>
      obtain ⟨below, -⟩ := List.getElem?_eq_some_iff.mp loaded
      simp_all [writeRank, openRank, scanLeft]
      omega
  | _ => simp_all [writeRank, openRank, scanLeft]

end State

namespace Vecs

variable {Index Thread V : Type} [DecidableEq Index] [DecidableEq Thread] {w : Nat}
variable {eq : V → V → Bool} {contents : Index → List V} {s next : Vecs Index Thread V w}
variable {action : VecAction Index Thread V} {t : Thread} {x : Index}
variable {indices : Finset Index} {threads : Finset Thread}

section Rank

/-- The sum of a rank over the vectors and the threads that have anything left to do. -/
def totals (indices : Finset Index) (threads : Finset Thread) (rank : State Thread w → Pc → Nat)
    (s : Vecs Index Thread V w) : Nat :=
  ∑ x ∈ indices, State.total threads (rank (s.stores x)) (s.stores x)

/-- What is left to do: first for the writers, then in the comparisons, then in
their reads, last for the running scans. -/
def rank (indices : Finset Index) (threads : Finset Thread) (s : Vecs Index Thread V w) :
    Nat × Nat × Nat × Nat × Nat :=
  (totals indices threads (fun _ => State.writeRank) s,
    ∑ t ∈ threads, (s.phases t).stagesLeft,
    ∑ t ∈ threads, (s.phases t).slicesLeft,
    totals indices threads (fun below => State.openRank below.writing) s,
    totals indices threads (fun below => State.scanLeft below.registry.length) s)

/-- Ranks are compared in this order. -/
def RankLess : Nat × Nat × Nat × Nat × Nat → Nat × Nat × Nat × Nat × Nat → Prop :=
  Prod.Lex (· < ·) (Prod.Lex (· < ·) State.DrainLess)

theorem rankLess_wf : WellFounded RankLess :=
  WellFounded.prod_lex Nat.lt_wfRel.wf (WellFounded.prod_lex Nat.lt_wfRel.wf State.drainLess_wf)

omit [DecidableEq Index] [DecidableEq Thread] in
/-- The sum of a rank changes by what it changes of the thread that moves. -/
theorem totals_add (rank : State Thread w → Pc → Nat) (inside : x ∈ indices)
    (involved : t ∈ threads) (elsewhere : ∀ y, y ≠ x → next.stores y = s.stores y)
    (others : ∀ u, u ≠ t → (next.stores x).pc u = (s.stores x).pc u)
    (same : rank (next.stores x) = rank (s.stores x)) :
    totals indices threads rank next + rank (s.stores x) ((s.stores x).pc t) =
      totals indices threads rank s + rank (s.stores x) ((next.stores x).pc t) := by
  let total (s : Vecs Index Thread V w) (y : Index) : Nat :=
    State.total threads (rank (s.stores y)) (s.stores y)
  have outer : ∑ y ∈ indices, total next y + total s x = ∑ y ∈ indices, total s y + total next x :=
    System.sum_add_of_others inside fun y other => by simp only [total, elsewhere y other]
  have inner := State.total_add (rank (s.stores x)) involved others
  simp only [total, same] at outer
  unfold totals
  omega

/-- A step of a method is progress. -/
theorem rankLess_of_step (stepped : s.step eq (.sync x (.step t)) = some next)
    (inside : x ∈ indices)
    (involved : t ∈ threads)
    (enters : ∀ call count, (s.stores x).pc t = .add call count → (s.stores x).writing = false)
    (zero : ∀ call position counter, (s.stores x).pc t = .scan call position →
      (s.stores x).registry[position]? = some counter → counter = 0) :
    RankLess (next.rank indices threads) (s.rank indices threads) := by
  cases moves_of_step stepped with
  | @sync _ _ moved _ move =>
      have others : ∀ u, u ≠ t → ((s.put x moved).stores x).pc u = (s.stores x).pc u := by
        intro u other
        rw [put_stores_self]
        exact move.pc_of_ne other
      have elsewhere : ∀ y, y ≠ x → (s.put x moved).stores y = s.stores y :=
        fun y other => put_stores_of_ne _ _ _ _ other
      have writes := totals_add (fun _ => State.writeRank) inside involved elsewhere others rfl
      unfold RankLess State.DrainLess rank
      simp only [Prod.lex_def, put_phases, put_stores_self] at writes ⊢
      rcases move.closer enters zero with less | ⟨same, flag, less | ⟨same', length, less⟩⟩
      · left
        omega
      · have opens := totals_add (fun below => State.openRank below.writing) inside involved
          elsewhere others (by rw [put_stores_self, flag])
        rw [put_stores_self] at opens
        refine .inr ⟨by omega, .inr ⟨trivial, .inr ⟨trivial, .inl ?_⟩⟩⟩
        omega
      · have opens := totals_add (fun below => State.openRank below.writing) inside involved
          elsewhere others (by rw [put_stores_self, flag])
        have scans := totals_add (fun below => State.scanLeft below.registry.length) inside involved
          elsewhere others (by rw [put_stores_self, length])
        rw [put_stores_self] at opens scans
        refine .inr ⟨by omega, .inr ⟨trivial, .inr ⟨trivial, .inr ⟨?_, ?_⟩⟩⟩⟩
        · omega
        · omega

omit [DecidableEq Index] [DecidableEq Thread] in
theorem sum_phases (measure : Comparison Index V → Nat) (involved : t ∈ threads)
    (others : ∀ u, u ≠ t → next.phases u = s.phases u) :
    ∑ u ∈ threads, measure (next.phases u) + measure (s.phases t) =
      ∑ u ∈ threads, measure (s.phases u) + measure (next.phases t) := by
  let left (s : Vecs Index Thread V w) (u : Thread) : Nat := measure (s.phases u)
  have sum : ∑ u ∈ threads, left next u + left s t = ∑ u ∈ threads, left s u + left next t :=
    System.sum_add_of_others involved fun u other => by simp only [left, others u other]
  exact sum

omit [DecidableEq Index] [DecidableEq Thread] in
/-- A step of a comparison is progress, if it leaves the writers alone. -/
theorem rankLess_of_turn (involved : t ∈ threads)
    (writers : ∀ x u, State.writeRank ((next.stores x).pc u) = State.writeRank ((s.stores x).pc u))
    (others : ∀ u, u ≠ t → next.phases u = s.phases u)
    (progress : (next.phases t).stagesLeft < (s.phases t).stagesLeft ∨
      ((next.phases t).stagesLeft = (s.phases t).stagesLeft ∧
        (next.phases t).slicesLeft < (s.phases t).slicesLeft)) :
    RankLess (next.rank indices threads) (s.rank indices threads) := by
  have writes : totals indices threads (fun _ => State.writeRank) next =
      totals indices threads (fun _ => State.writeRank) s :=
    Finset.sum_congr rfl fun x _ => Finset.sum_congr rfl fun u _ => writers x u
  have stages := sum_phases Comparison.stagesLeft involved others
  have slices := sum_phases Comparison.slicesLeft involved others
  unfold RankLess State.DrainLess rank
  simp only [Prod.lex_def]
  omega

end Rank

section Covered

/-- These vectors and threads are all that is involved in calls. -/
structure Covered (indices : Finset Index) (threads : Finset Thread) (s : Vecs Index Thread V w) :
    Prop where
  busy : ∀ x t, (s.stores x).pc t ≠ .idle → x ∈ indices ∧ t ∈ threads
  compares : ∀ t self other, (s.phases t).operands = some (self, other) →
    t ∈ threads ∧ self ∈ indices ∧ other ∈ indices

/-- The action is one of these threads on these vectors. -/
structure Inside (indices : Finset Index) (threads : Finset Thread)
    (action : VecAction Index Thread V) : Prop where
  acts : ∀ x below, action.below = some (x, below) → x ∈ indices ∧ below.thread ∈ threads
  other : ∀ t self other, action = .compare t self other → other ∈ indices

theorem Covered.preserved (covered : s.Covered indices threads)
    (stepped : s.step eq action = some next) (inside : Inside indices threads action) :
    next.Covered indices threads where
  busy x t busy := by
    rcases moves_at stepped x with ⟨same, -⟩ | ⟨below, acts, move⟩
    · exact covered.busy x t (same ▸ busy)
    · by_cases actor : t = below.thread
      · exact actor ▸ inside.acts x below acts
      · exact covered.busy x t (move.pc_of_ne actor ▸ busy)
  compares t self other compares := by
    rcases (moves_of_step stepped).turns t with ⟨same, -⟩ | turn
    · exact covered.compares t self other (same ▸ compares)
    · generalize next.phases t = phase at turn compares
      by_cases comparing : s.phases t = .idle
      · cases turn with
        | compare =>
            cases compares
            obtain ⟨member, involved⟩ := inside.acts _ _ rfl
            exact ⟨involved, member, inside.other _ _ _ rfl⟩
        | visit visits => exact absurd comparing visits.ne_idle.1
        | held here | second here | lengths here | dropped here | returned here =>
            cases here.symm.trans comparing
      · refine covered.compares t self other ?_
        rwa [← turn.operands_eq comparing fun idle => by rw [idle] at compares; cases compares]

omit [DecidableEq Index] [DecidableEq Thread] in
theorem Covered.mono (covered : s.Covered indices threads) {moreIndices : Finset Index}
    {moreThreads : Finset Thread} (more : indices ⊆ moreIndices) (more' : threads ⊆ moreThreads) :
    s.Covered moreIndices moreThreads where
  busy x t busy := (covered.busy x t busy).imp (@more x) (@more' t)
  compares t self other compares :=
    (covered.compares t self other compares).imp (@more' t) (And.imp (@more self) (@more other))

/-- An action involves finitely many more. -/
theorem exists_inside (indices : Finset Index) (threads : Finset Thread)
    (action : VecAction Index Thread V) : ∃ moreIndices moreThreads, indices ⊆ moreIndices ∧
      threads ⊆ moreThreads ∧ Inside moreIndices moreThreads action := by
  cases action with
  | sync x below =>
      refine ⟨insert x indices, insert below.thread threads, Finset.subset_insert ..,
        Finset.subset_insert .., ?_, by simp⟩
      rintro _ _ ⟨⟩
      exact ⟨Finset.mem_insert_self .., Finset.mem_insert_self ..⟩
  | compare t self other =>
      refine ⟨insert self (insert other indices), insert t threads,
        (Finset.subset_insert ..).trans (Finset.subset_insert ..), Finset.subset_insert .., ?_, ?_⟩
      · rintro _ _ ⟨⟩
        exact ⟨Finset.mem_insert_self .., Finset.mem_insert_self ..⟩
      · rintro _ _ _ ⟨⟩
        exact Finset.mem_insert_of_mem (Finset.mem_insert_self ..)
  | visit | change =>
      refine ⟨indices, threads, Finset.Subset.refl _, Finset.Subset.refl _, ?_, by simp⟩
      rintro _ _ ⟨⟩

/-- Only finitely many threads and vectors have been involved. -/
theorem exists_covered (reachable : (vecs Thread w eq contents).Reachable s) :
    ∃ indices threads, s.Covered indices threads := by
  refine reachable.invariant (fun s : Vecs Index Thread V w =>
    ∃ indices threads, s.Covered indices threads) ?_ ?_
  · rintro _ rfl
    refine ⟨∅, ∅, fun x t busy => absurd rfl busy, fun t self other compares => ?_⟩
    cases compares
  · rintro s action next - ⟨indices, threads, covered⟩ ⟨-, stepped⟩
    obtain ⟨moreIndices, moreThreads, more, more', inside⟩ := exists_inside indices threads action
    exact ⟨moreIndices, moreThreads, (covered.mono more more').preserved stepped inside⟩

end Covered

end Vecs

end DarkStd.Sync
