import Funduq.Broker.Grammar

/-!
# What an offer leaves behind

A run is offered at most once, and the note taken at that moment is true of it
from then on: the key it was offered to is the only one it is ever offered to
or held by, the provider had room, and an interjection joined the turn it is
addressed to, which somebody held.
-/

namespace Funduq.Broker

open Funduq.Lib

namespace Lane

variable {cfg : Config} {r : RunId} {a : Option Message} {l l' : Lane}

/-- What is true of a run and the note of its offer. -/
structure Marked (run : Run) (note : OfferNote) : Prop where
  offeredTo : ∀ k, run.offeredTo = some k → k = note.key
  claimedBy : ∀ k, run.claimedBy = some k → k = note.key
  kind : run.isInterjection = note.interjection
  room : ∀ n, note.declared = some n → note.inFlight < n
  joins : note.interjection = true → note.headClaimed = true ∧ note.head.isSome = true ∧
    note.head = run.addressedRunId

/-- A run that was not offered is nobody's; one that was has one note, which is
true of it. -/
def Noted (l : Lane) : Prop :=
  l.trail.offers = [] ∧ l.run.unoffered = true ∧ l.run.isInterjection = false ∨
    l.trail.recorded ≠ [] ∧ ∃ note, l.trail.offers = [note] ∧ Marked l.run note

/-- A run's key is the one it was offered to. -/
theorem Noted.key (hn : l.Noted) {k : Key}
    (hk : l.run.offeredTo = some k ∨ l.run.claimedBy = some k) :
    l.trail.offers.map OfferNote.key = [k] := by
  rcases hn with ⟨-, hu, -⟩ | ⟨-, note, ho, hm⟩
  · rcases hk with hk | hk <;> simp [Run.unoffered, hk] at hu
  · rw [ho]
    rcases hk with hk | hk
    · rw [hm.offeredTo k hk]
      rfl
    · rw [hm.claimedBy k hk]
      rfl

/-- Changes that take nothing on leave the note true. -/
theorem Marked.mono {run run' : Run} {note : OfferNote} (hm : Marked run note)
    (ho : run'.offeredTo = run.offeredTo ∨ run'.offeredTo = none)
    (hc : run'.claimedBy = run.claimedBy ∨ run'.claimedBy = run.offeredTo)
    (hi : run'.isInterjection = run.isInterjection)
    (ha : run'.addressedRunId = run.addressedRunId) : Marked run' note where
  offeredTo k hk := by
    rcases ho with ho | ho
    · exact hm.offeredTo k (ho ▸ hk)
    · rw [ho] at hk
      cases hk
  claimedBy k hk := by
    rcases hc with hc | hc
    · exact hm.claimedBy k (hc ▸ hk)
    · exact hm.offeredTo k (hc ▸ hk)
  kind := hi.trans hm.kind
  room := hm.room
  joins hn := by
    rw [ha]
    exact hm.joins hn

/-- What a step that is no offer may do. -/
private theorem Noted.of_step (hn : l.Noted)
    (ho : l'.run.offeredTo = l.run.offeredTo ∨ l'.run.offeredTo = none)
    (hc : l'.run.claimedBy = l.run.claimedBy ∨ l'.run.claimedBy = l.run.offeredTo)
    (hv : l'.run.verdictOpen = l.run.verdictOpen ∨ l'.run.verdictOpen = false)
    (hi : l'.run.isInterjection = l.run.isInterjection)
    (ha : l'.run.addressedRunId = l.run.addressedRunId)
    (hoffers : l'.trail.offers = l.trail.offers)
    (hrec : l.trail.recorded ≠ [] → l'.trail.recorded ≠ []) : l'.Noted := by
  rcases hn with ⟨he, hu, hint⟩ | ⟨hne, note, he, hm⟩
  · refine .inl ⟨hoffers.trans he, ?_, hi.trans hint⟩
    simp only [Run.unoffered, Bool.and_eq_true, Option.isNone_iff_eq_none,
      Bool.not_eq_true'] at hu ⊢
    obtain ⟨⟨hc₀, hv₀⟩, ho₀⟩ := hu
    refine ⟨⟨?_, ?_⟩, ?_⟩
    · rcases hc with h | h
      · exact h.trans hc₀
      · exact h.trans ho₀
    · rcases hv with h | h
      · exact h.trans hv₀
      · exact h
    · rcases ho with h | h
      · exact h.trans ho₀
      · exact h
  · exact .inr ⟨hrec hne, note, hoffers.trans he, hm.mono ho hc hi ha⟩

/-- Recording takes nothing on either. -/
private theorem Noted.record {x : Run} {c : Command} {ret : Ret} (hn : l.Noted)
    (ho : x.offeredTo = l.run.offeredTo ∨ x.offeredTo = none)
    (hc : x.claimedBy = l.run.claimedBy ∨ x.claimedBy = l.run.offeredTo)
    (hv : x.verdictOpen = l.run.verdictOpen ∨ x.verdictOpen = false)
    (hi : x.isInterjection = l.run.isInterjection)
    (ha : x.addressedRunId = l.run.addressedRunId) :
    ({ l with run := x }.record cfg c ret).Noted := by
  refine hn.of_step ?_ ?_ ?_ ?_ ?_ rfl fun _ => by simp [Lane.record]
  · simpa [Lane.record] using ho
  · simpa [Lane.record] using hc
  · simpa [Lane.record] using hv
  · simpa [Lane.record] using hi
  · simpa [Lane.record] using ha

private theorem Noted.takes {m : Message} (hn : l.Noted) (ht : Takes cfg r m l l') :
    l'.Noted := by
  cases ht with
  | ignored _ => exact hn
  | accepted _ _ hk => exact hn.record (.inl rfl) (.inr hk.symm) (.inr rfl) rfl rfl
  | refused _ _ _ => exact hn.record (.inr rfl) (.inl rfl) (.inr rfl) rfl rfl
  | declined _ _ _ => exact hn.record (.inr rfl) (.inl rfl) (.inr rfl) rfl rfl
  | lapsed _ _ _ => exact hn.record (.inr rfl) (.inl rfl) (.inr rfl) rfl rfl
  | said _ _ => exact hn.record (.inl rfl) (.inl rfl) (.inl rfl) rfl rfl
  | cancelled _ _ _ => exact hn.record (.inl rfl) (.inl rfl) (.inl rfl) rfl rfl
  | failed _ => exact hn.record (.inl rfl) (.inl rfl) (.inl rfl) rfl rfl
  | _ => exact hn.of_step (.inl rfl) (.inl rfl) (.inl rfl) rfl rfl rfl id

theorem Noted.step (hs : l.Sound) (hn : l.Noted) (ht : Step cfg r a l l') : l'.Noted := by
  cases ht with
  | enqueued hh hf _ _ _ =>
      have hrec := hs.unborn hh
      refine .inl ⟨?_, hf.unoffered, hf.isInterjection⟩
      rcases hn with ⟨he, -⟩ | ⟨hne, -⟩
      · exact he
      · exact absurd hrec hne
  | @took _ _ m _ _ ht => exact Noted.takes (l := l.hear m) hn ht
  | @offered _ c i note hl hh hu hp =>
      have hrec : l.trail.recorded = [] :=
        List.map_eq_nil_iff.1 (word_of_stage (hs.fresh_of_unoffered hl hh hu).1)
      rcases hn with ⟨he, -⟩ | ⟨hne, -⟩
      · refine .inr ⟨by simp [Lane.record], note, by simp [Lane.record, he], ?_⟩
        have hclaimed : l.run.claimedBy = none := by
          simp only [Run.unoffered, Bool.and_eq_true, Option.isNone_iff_eq_none] at hu
          exact hu.1.1
        constructor
        · intro k hk
          rw [hp.key]
          exact (Option.some.inj hk).symm
        · intro k hk
          exact absurd (hk.symm.trans hclaimed) (by simp)
        · exact hp.kind.symm
        · exact hp.room
        · intro hnote
          exact hp.joins (hp.kind.symm.trans hnote)
      · exact absurd hrec hne
  | invalid _ _ _ => exact hn.record (.inl rfl) (.inl rfl) (.inl rfl) rfl rfl
  | cancelChecked _ _ _ _ => exact hn.record (.inl rfl) (.inl rfl) (.inl rfl) rfl rfl
  | poisoned _ _ => exact hn.record (.inl rfl) (.inl rfl) (.inl rfl) rfl rfl
  | settled _ _ =>
      obtain ⟨_, h⟩ := l.run.settle_run
      refine hn.of_step (.inr ?_) (.inl ?_) (.inl ?_) ?_ ?_ rfl id
      · exact (congrArg Run.offeredTo h :)
      · exact (congrArg Run.claimedBy h :)
      · exact (congrArg Run.verdictOpen h :)
      · exact (congrArg Run.isInterjection h :)
      · exact (congrArg Run.addressedRunId h :)
  | _ => exact hn.of_step (.inl rfl) (.inl rfl) (.inl rfl) rfl rfl rfl id

end Lane

theorem reachable_noted {cfg : Config} {db : RunId → Option Row} {s : State}
    (hs : Reachable cfg db s) (r : RunId) : (s.lane r).Noted :=
  hs.lane_invariant (P := Lane.Noted) r (.inl ⟨rfl, rfl, rfl⟩)
    fun _ _ _ hl hn ht => hn.step hl ht

end Funduq.Broker
