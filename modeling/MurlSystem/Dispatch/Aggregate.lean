import Mathlib.Data.Multiset.Filter
import MurlSystem.Dispatch.Execution

namespace MurlSystem

open Program

def OutcomeStatus.isMissed (s : OutcomeStatus) : Bool := s.isBad || s == .denied

structure OutcomeRow where
  required : Bool
  status : OutcomeStatus
deriving DecidableEq, Repr

def OutcomeRow.missed (row : OutcomeRow) : Bool := row.required && row.status.isMissed

instance (rows : Multiset OutcomeRow) (p : OutcomeRow → Prop) [DecidablePred p] :
    Decidable (∃ row ∈ rows, p row) := Multiset.decidableExistsMultiset

def aggregateTable (rows : Multiset OutcomeRow) : AggregateStatus :=
  if ∀ row ∈ rows, row.status ≠ .skipped → row.status = .opened then .success
  else if (∃ row ∈ rows, row.status = .opened) ∧ ∀ row ∈ rows, row.missed = false then .partialSuccess
  else if (∃ row ∈ rows, row.missed = true) ∨
      (∀ row ∈ rows, row.status ≠ .opened) ∧ ∃ row ∈ rows, row.status.isBad = true then .failed
  else .denied

def outcomeRows (resources : List PlannedResource) (outcomes : List ResourceOutcome) :
    List OutcomeRow :=
  (resources.zip outcomes).map fun entry => ⟨entry.1.resource.required,entry.2.status⟩

section Table

theorem OutcomeRow.missed_unskipped {row : OutcomeRow} (h : row.missed = true) :
    row.status ≠ .skipped := by
  intro hs
  simp [OutcomeRow.missed,hs,OutcomeStatus.isMissed,OutcomeStatus.isBad] at h

theorem OutcomeRow.bad_unskipped {row : OutcomeRow} (h : row.status.isBad = true) :
    row.status ≠ .skipped := by
  intro hs
  simp [hs,OutcomeStatus.isBad] at h

theorem aggregateTable_filter (rows : Multiset OutcomeRow) :
    aggregateTable (rows.filter fun row => row.status ≠ .skipped) = aggregateTable rows := by
  have hall : ∀ p : OutcomeRow → Prop, (∀ row, row.status = .skipped → p row) →
      ((∀ row ∈ rows.filter fun row => row.status ≠ .skipped, p row) ↔ ∀ row ∈ rows, p row) := by
    intro p hp
    refine ⟨fun h row hrow => ?_,fun h row hrow => h row (Multiset.mem_filter.mp hrow).1⟩
    by_cases hs : row.status = .skipped
    · exact hp row hs
    · exact h row (Multiset.mem_filter.mpr ⟨hrow,hs⟩)
  have hany : ∀ p : OutcomeRow → Prop, (∀ row, p row → row.status ≠ .skipped) →
      ((∃ row ∈ rows.filter fun row => row.status ≠ .skipped, p row) ↔ ∃ row ∈ rows, p row) := by
    intro p hp
    constructor
    · rintro ⟨row,hrow,h⟩
      exact ⟨row,(Multiset.mem_filter.mp hrow).1,h⟩
    · rintro ⟨row,hrow,h⟩
      exact ⟨row,Multiset.mem_filter.mpr ⟨hrow,hp row h⟩,h⟩
  have hunmissed : ∀ row : OutcomeRow, row.status = .skipped → row.missed = false := by
    intro row hs
    cases hm : row.missed with
    | false => rfl
    | true => exact absurd hs (OutcomeRow.missed_unskipped hm)
  have hspoken := hall (fun row => row.status ≠ .skipped → row.status = .opened)
    fun row hs hne => absurd hs hne
  have hpartial := and_congr (hany (fun row => row.status = .opened) fun row ho => by simp [ho])
    (hall (fun row => row.missed = false) hunmissed)
  have hfailed := or_congr (hany (fun row => row.missed = true) fun row => OutcomeRow.missed_unskipped)
    (and_congr (hall (fun row => row.status ≠ .opened) fun row hs => by simp [hs])
      (hany (fun row => row.status.isBad = true) fun row => OutcomeRow.bad_unskipped))
  exact if_congr hspoken rfl (if_congr hpartial rfl (if_congr hfailed rfl rfl))

theorem spoken_opened (s : OutcomeStatus) :
    (s ≠ .skipped → s = .opened) ↔ s.isBad = false ∧ s ≠ .denied := by
  cases s <;> simp [OutcomeStatus.isBad]

theorem aggregateTable_list (rows : List OutcomeRow) : aggregateTable rows =
    if rows.any OutcomeRow.missed then .failed
    else if (rows.any fun row => row.status == .opened) && !(rows.any fun row => row.status.isBad) &&
      !(rows.any fun row => row.status == .denied) then .success
    else if rows.any fun row => row.status == .opened then .partialSuccess
    else if rows.any fun row => row.status.isBad then .failed
    else if rows.any fun row => row.status == .denied then .denied
    else .success := by
  have hmissed : (rows.any OutcomeRow.missed = true) ↔ ∃ row ∈ rows, row.missed = true :=
    List.any_eq_true
  have hopened : (rows.any fun row => row.status == .opened) = true ↔
      ∃ row ∈ rows, row.status = .opened := by simp
  have hbad : (rows.any fun row => row.status.isBad) = true ↔ ∃ row ∈ rows, row.status.isBad = true :=
    List.any_eq_true
  have hdenied : (rows.any fun row => row.status == .denied) = true ↔
      ∃ row ∈ rows, row.status = .denied := by simp
  have hdefeat : (∃ row ∈ rows, row.missed = true) →
      (∃ row ∈ rows, row.status.isBad = true) ∨ ∃ row ∈ rows, row.status = .denied := by
    rintro ⟨row,hrow,h⟩
    simp only [OutcomeRow.missed,OutcomeStatus.isMissed,Bool.and_eq_true,Bool.or_eq_true,
      beq_iff_eq] at h
    exact h.2.imp (fun hb => ⟨row,hrow,hb⟩) (fun hd => ⟨row,hrow,hd⟩)
  have hclear : (∀ row ∈ rows, row.missed = false) ↔ ¬∃ row ∈ rows, row.missed = true := by
    simp
  have hclosed : (∀ row ∈ rows, row.status ≠ .opened) ↔ ¬∃ row ∈ rows, row.status = .opened := by
    simp
  have hspoken : (∀ row ∈ rows, row.status ≠ .skipped → row.status = .opened) ↔
      (¬∃ row ∈ rows, row.status.isBad = true) ∧ ¬∃ row ∈ rows, row.status = .denied := by
    simp only [spoken_opened,not_exists,not_and,Bool.not_eq_true]
    exact ⟨fun h => ⟨fun row hr => (h row hr).1,fun row hr => (h row hr).2⟩,
      fun h row hr => ⟨h.1 row hr,h.2 row hr⟩⟩
  unfold aggregateTable
  simp only [Multiset.mem_coe,hspoken,hclear,hclosed,← hmissed,← hopened,← hbad,← hdenied]
  rw [← hmissed,← hbad,← hdenied] at hdefeat
  generalize rows.any OutcomeRow.missed = missed at *
  generalize (rows.any fun row => row.status == .opened) = opened at *
  generalize (rows.any fun row => row.status.isBad) = bad at *
  generalize (rows.any fun row => row.status == .denied) = denied at *
  clear hmissed hopened hbad hdenied hclear hclosed hspoken
  cases missed <;> cases opened <;> cases bad <;> cases denied <;> simp at hdefeat ⊢

end Table

section Outcomes

variable {resources : List PlannedResource} {outcomes : List ResourceOutcome}

theorem outcomeRows_statuses (h : outcomes.length = resources.length) :
    (outcomeRows resources outcomes).map OutcomeRow.status = outcomes.map ResourceOutcome.status := by
  have hsnd : (resources.zip outcomes).map Prod.snd = outcomes :=
    List.map_snd_zip (Nat.le_of_eq h)
  conv_rhs => rw [← hsnd]
  simp [outcomeRows,Function.comp_def]

theorem aggregate_table {resolution : Resolution}
    (h : outcomes.length = resolution.resources.length) :
    aggregate resolution outcomes = aggregateTable (outcomeRows resolution.resources outcomes) := by
  have hstatuses : ∀ p : OutcomeStatus → Bool, (outcomes.map ResourceOutcome.status).any p =
      (outcomeRows resolution.resources outcomes).any fun row => p row.status := by
    intro p
    rw [← outcomeRows_statuses h,List.any_map]
    rfl
  have hmissed : (outcomeRows resolution.resources outcomes).any OutcomeRow.missed =
      (resolution.resources.zip (outcomes.map ResourceOutcome.status)).any
        fun entry => entry.1.resource.required && entry.2.isMissed := by
    rw [outcomeRows,List.zip_map_right,List.any_map,List.any_map]
    rfl
  rw [aggregateTable_list,hmissed,← hstatuses OutcomeStatus.isBad,
    ← hstatuses fun s => s == .opened,← hstatuses fun s => s == .denied]
  rfl

theorem mem_outcomeRows {row : OutcomeRow} : row ∈ outcomeRows resources outcomes ↔
    ∃ (i : Nat) (pr : PlannedResource) (o : ResourceOutcome), resources[i]? = some pr ∧
      outcomes[i]? = some o ∧ row = ⟨pr.resource.required,o.status⟩ := by
  unfold outcomeRows
  rw [List.mem_map]
  constructor
  · rintro ⟨⟨pr,o⟩,hmem,rfl⟩
    obtain ⟨i,hi⟩ := List.mem_iff_getElem?.mp hmem
    obtain ⟨hpr,ho⟩ := List.getElem?_zip_eq_some.mp hi
    exact ⟨i,pr,o,hpr,ho,rfl⟩
  · rintro ⟨i,pr,o,hpr,ho,rfl⟩
    exact ⟨(pr,o),List.mem_of_getElem? (List.getElem?_zip_eq_some.mpr ⟨hpr,ho⟩),rfl⟩

end Outcomes

end MurlSystem
