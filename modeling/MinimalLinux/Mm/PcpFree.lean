/-
`free_pcppages_bulk` of `mm/page_alloc.c`.

Pages are taken from the tails of the lists of one CPU in turn.  A page that
`bulkfree_pcp_prepare` finds bad is taken from its list and counted, but not freed.
-/
import Mathlib.Algebra.BigOperators.Fin

namespace MinimalLinux.Mm

open List Function

variable {α : Type} {fuel : Nat}

/-- The search for a list with pages, with `MIGRATE_PCPTYPES` 3: the new `migratetype` and
`batch_free`. -/
def nextPcpList (lists : Fin 3 → List α) : Nat → Fin 3 → Nat → Option (Fin 3 × Nat)
  | 0, _, _ => none
  | fuel + 1, migratetype, batchFree =>
    if lists (migratetype + 1) = [] then nextPcpList lists fuel (migratetype + 1)
    (batchFree + 1) else some (migratetype + 1, batchFree + 1)

/-- The list the next page comes from: the same one while the inner loop goes on with `again`. -/
def pcpBatch (lists : Fin 3 → List α) (fuel count : Nat) (migratetype : Fin 3) (batchFree : Nat) :
    Bool → Option (Fin 3 × Nat)
  | true => some (migratetype, batchFree)
  | false => do
    let (migratetype, batchFree) ← nextPcpList lists fuel migratetype batchFree
    some (migratetype, if batchFree = 3 then count else batchFree)

/-- The two loops of `free_pcppages_bulk` as one; the result has the pages given to
`__free_one_page` and the lists. -/
def freePcppagesLoop (prepare : α → Bool) (fuel : Nat) : Nat → (Fin 3 → List α) → Fin 3 → Nat →
    Bool → Option (List α × (Fin 3 → List α))
  | 0, lists, _, _, _ => some ([], lists)
  | count + 1, lists, migratetype, batchFree, again => do
    let (migratetype, batchFree) ← pcpBatch lists fuel (count + 1) migratetype batchFree again
    let page ← (lists migratetype).getLast?
    let list := (lists migratetype).dropLast
    let (pages, rest) ← freePcppagesLoop prepare fuel count (update lists migratetype list)
      migratetype (batchFree - 1) (batchFree - 1 ≠ 0 ∧ list ≠ [])
    some (if prepare page then pages else page :: pages, rest)

def freePcppagesBulk (prepare : α → Bool) (fuel count : Nat) (lists : Fin 3 → List α) :
    Option (List α × (Fin 3 → List α)) :=
  freePcppagesLoop prepare fuel count lists 0 0 false

variable {lists : Fin 3 → List α}

/-- The pages `taken` were at the tails of their lists, in the order of the removals. -/
def TakenFrom (lists : Fin 3 → List α) (taken : List (Fin 3 × α)) (rest : Fin 3 → List α) : Prop :=
  ∀ t, lists t = rest t ++ ((taken.filter (·.1 = t)).map Prod.snd).reverse

lemma nextPcpList_spec (hsome : ∃ t, lists t ≠ []) (hfuel : 3 ≤ fuel) (migratetype : Fin 3)
    (batchFree : Nat) :
    ∃ t b, nextPcpList lists fuel migratetype batchFree = some (t, b) ∧ lists t ≠ [] := by
  obtain ⟨fuel, rfl⟩ := Nat.exists_eq_add_of_le' hfuel
  have hround : ∀ t, t = migratetype + 1 ∨ t = migratetype + 1 + 1 ∨
      t = migratetype + 1 + 1 + 1 := by
    revert migratetype
    decide
  simp only [nextPcpList]
  split_ifs with h1 h2 h3
  · obtain ⟨t, ht⟩ := hsome
    obtain rfl | rfl | rfl := hround t
    · exact absurd h1 ht
    · exact absurd h2 ht
    · exact absurd h3 ht
  · exact ⟨_, _, rfl, h3⟩
  · exact ⟨_, _, rfl, h2⟩
  · exact ⟨_, _, rfl, h1⟩

variable {prepare : α → Bool}

lemma freePcppagesLoop_spec (hfuel : 3 ≤ fuel) {count : Nat}
    (hcount : count ≤ ∑ t, (lists t).length) {migratetype : Fin 3} {batchFree : Nat}
    {again : Bool} (hagain : again = true → lists migratetype ≠ []) :
    ∃ taken rest, freePcppagesLoop prepare fuel count lists migratetype batchFree again =
    some ((taken.map Prod.snd).filter (fun page => !prepare page), rest) ∧ taken.length = count ∧
    TakenFrom lists taken rest := by
  induction count generalizing lists migratetype batchFree again with
  | zero => exact ⟨[], lists, rfl, rfl, fun t => (append_nil _).symm⟩
  | succ count ih =>
    -- `again` is only set at a list with pages, so there is a next page in both cases
    obtain ⟨t, b, hlist, hne⟩ : ∃ t b, pcpBatch lists fuel (count + 1) migratetype batchFree again =
        some (t, b) ∧ lists t ≠ [] := by
      cases again with
      | true => exact ⟨_, _, rfl, hagain rfl⟩
      | false =>
        have hsome : ∃ t, lists t ≠ [] := by
          by_contra! hempty
          simp [hempty] at hcount
        obtain ⟨t, b, hnext, hne⟩ := nextPcpList_spec hsome hfuel migratetype batchFree
        exact ⟨t, _, by rw [pcpBatch, hnext]; rfl, hne⟩
    obtain ⟨list, page, hpage⟩ := (eq_nil_or_concat' (lists t)).resolve_left hne
    have hrest : count ≤ ∑ s, (update lists t list s).length := by
      have hlength : ∀ s, (lists s).length = (update lists t list s).length + if s = t then 1
          else 0 := by
        intro s
        by_cases hs : s = t
        · simp [hs, hpage]
        · simp [hs]
      simp only [hlength, Finset.sum_add_distrib, Finset.sum_ite_eq', Finset.mem_univ, if_pos]
        at hcount
      omega
    obtain ⟨taken, rest, hrun, hlength, hlists⟩ :=
      @ih (update lists t list) hrest t (b - 1) (b - 1 ≠ 0 ∧ list ≠ []) (by simp)
    refine ⟨(t, page) :: taken, rest, ?_, congrArg (· + 1) hlength, fun s => ?_⟩
    · rw [freePcppagesLoop, hlist]
      simp only [bind, Option.bind, hpage, dropLast_concat, getLast?_concat, hrun]
      cases hbad : prepare page <;> simp [hbad]
    have hold := hlists s
    by_cases hs : s = t
    · rw [hs, update_self] at hold
      simp [hs, hpage, hold]
    rw [update_of_ne hs] at hold
    rw [hold, filter_cons_of_neg]
    simpa using Ne.symm hs

/-- Exactly `count` pages are taken from the tails, and those that are not bad are freed. -/
theorem free_pcppages_bulk_spec {fuel : Nat} (hfuel : 3 ≤ fuel) {count : Nat}
    (hcount : count ≤ ∑ t, (lists t).length) :
    ∃ taken rest, freePcppagesBulk prepare fuel count lists = some
    ((taken.map Prod.snd).filter (fun page => !prepare page), rest) ∧
    taken.length = count ∧ TakenFrom lists taken rest :=
  freePcppagesLoop_spec hfuel hcount nofun

/-- Two of three pages are freed. -/
theorem free_pcppages_bulk_spec_two : ∃ taken rest, freePcppagesBulk
    (fun _ => false) 3 2 ![[1], [], [2, 3]] =
    some ((taken.map Prod.snd).filter (fun _ => true), rest) ∧ taken.length = 2 ∧
    TakenFrom ![[1], [], [2, 3]] taken rest :=
  free_pcppages_bulk_spec (by decide) (by decide)

/-- A bad page is taken from its list and never freed. -/
theorem free_pcppages_bulk_bad :
    (freePcppagesBulk (fun page => page == 3) 3 2 ![[1], [], [2, 3]]).map Prod.fst = some [2] := by
  decide

end MinimalLinux.Mm
