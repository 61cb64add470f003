import Palmira.Collect.Parallel
import Palmira.Foundation.Loop

/-!
# The sections of the parallel branch

The loop over `uLower` runs in 32 bits. As long as the bound leaves room for one
more section below `2 ^ 32` it ends and its sections tile the ids below the bound;
past that the counter wraps around to 0 and the loop starts over.
-/

namespace Palmira.Collect

open Loop

/-- The limits passed to `Duplicate`: the ids from `lower` up to `upper`. -/
structure Section where
  lower : ℕ
  upper : ℕ
  deriving DecidableEq

namespace Section

def Has (s : Section) (id : ℕ) : Prop := s.lower ≤ id ∧ id < s.upper

def Disjoint (s t : Section) : Prop := ∀ id, ¬ (s.Has id ∧ t.Has id)

theorem disjoint_of_le {s t : Section} (hle : s.upper ≤ t.lower) : s.Disjoint t := by
  intro id ⟨hs, ht⟩
  exact absurd (hs.2.trans_le (hle.trans ht.1)) (Nat.lt_irrefl id)

end Section

/-- One round of `for ( uint32_t uLower = 0; uLower < rBound; uLower += max_thread_section )`, with
the sections passed to `Duplicate` so far. -/
def sectionRound (rBound : ℕ) : ℕ × List Section → (ℕ × List Section) ⊕ List Section
  | (uLower, sections) =>
      if uLower < rBound then
        .inl (nextLower uLower, sections ++ [⟨uLower, nextLower uLower⟩])
      else .inr sections

/-- Every id below the bound lies in exactly one of the sections, none of which is empty. -/
structure Tile (rBound : ℕ) (sections : List Section) : Prop where
  nonempty : ∀ s ∈ sections, s.lower < s.upper
  disjoint : sections.Pairwise Section.Disjoint
  covered : ∀ id < rBound, ∃! s, s ∈ sections ∧ s.Has id

/-- The loop ends, and its sections tile the index. -/
def EndsTiled (rBound : ℕ) : Prop :=
  ∃ sections, Leaves (sectionRound rBound) (0, []) sections ∧ Tile rBound sections

/-- The sections so far are adjacent and reach up to `uLower`. -/
structure TiledTo (uLower : ℕ) (sections : List Section) : Prop where
  nonempty : ∀ s ∈ sections, s.lower < s.upper
  behind : ∀ s ∈ sections, s.upper ≤ uLower
  ordered : sections.Pairwise (fun s t => s.upper ≤ t.lower)
  covered : ∀ id < uLower, ∃ s ∈ sections, s.Has id

namespace TiledTo

variable {uLower : ℕ} {sections : List Section}

theorem nil : TiledTo 0 [] where
  nonempty := by simp
  behind := by simp
  ordered := .nil
  covered id hid := absurd hid (Nat.not_lt_zero id)

theorem next (htiled : TiledTo uLower sections) {upper : ℕ} (hlt : uLower < upper) :
    TiledTo upper (sections ++ [⟨uLower, upper⟩]) where
  nonempty s hs := by
    rcases List.mem_append.mp hs with hs | hs
    · exact htiled.nonempty s hs
    · exact List.mem_singleton.mp hs ▸ hlt
  behind s hs := by
    rcases List.mem_append.mp hs with hs | hs
    · exact (htiled.behind s hs).trans hlt.le
    · exact List.mem_singleton.mp hs ▸ Nat.le_refl upper
  ordered := by
    refine List.pairwise_append.mpr ⟨htiled.ordered, List.pairwise_singleton _ _, ?_⟩
    intro s hs t ht
    exact List.mem_singleton.mp ht ▸ htiled.behind s hs
  covered id hid := by
    by_cases hold : id < uLower
    · obtain ⟨s, hs, hhas⟩ := htiled.covered id hold
      exact ⟨s, List.mem_append_left _ hs, hhas⟩
    · exact ⟨⟨uLower, upper⟩, by simp, Nat.le_of_not_lt hold, hid⟩

/-- Two sections of such a list that share an id are one. -/
theorem unique (htiled : TiledTo uLower sections) {s t : Section} (hs : s ∈ sections)
    (ht : t ∈ sections) {id : ℕ} (hhas : s.Has id) (hhas' : t.Has id) : s = t := by
  have hnot_before : ∀ {a b : Section}, a.Has id → b.Has id → ¬ a.upper ≤ b.lower :=
    fun ha hb hle => Section.disjoint_of_le hle id ⟨ha, hb⟩
  obtain ⟨i, hi, rfl⟩ := List.getElem_of_mem hs
  obtain ⟨j, hj, rfl⟩ := List.getElem_of_mem ht
  rcases Nat.lt_trichotomy i j with hlt | rfl | hgt
  · exact absurd (List.pairwise_iff_getElem.mp htiled.ordered i j hi hj hlt)
      (hnot_before hhas hhas')
  · rfl
  · exact absurd (List.pairwise_iff_getElem.mp htiled.ordered j i hj hi hgt)
      (hnot_before hhas' hhas)

theorem tile (htiled : TiledTo uLower sections) {rBound : ℕ} (hle : rBound ≤ uLower) :
    Tile rBound sections where
  nonempty := htiled.nonempty
  disjoint := htiled.ordered.imp Section.disjoint_of_le
  covered id hid := by
    obtain ⟨s, hs, hhas⟩ := htiled.covered id (hid.trans_le hle)
    exact ⟨s, ⟨hs, hhas⟩, fun t ht => htiled.unique ht.1 hs ht.2 hhas⟩

end TiledTo

theorem nextLower_eq {uLower rBound : ℕ} (hlt : uLower < rBound)
    (hroom : rBound ≤ 2 ^ 32 - maxThreadSection) :
    nextLower uLower = uLower + maxThreadSection := by
  unfold nextLower maxThreadSection at *
  omega

theorem sectionRound_tiled {rBound : ℕ} (hroom : rBound ≤ 2 ^ 32 - maxThreadSection) :
    EndsTiled rBound := by
  -- no bound wraps, so the lower one grows and what is left below `rBound` is the measure
  have hlt_next : ∀ uLower < rBound, uLower < nextLower uLower := by
    intro uLower hlt
    rw [nextLower_eq hlt hroom]
    exact Nat.lt_add_of_pos_right (by decide)
  have hround : ∀ s next, TiledTo s.1 s.2 → sectionRound rBound s = .inl next →
      TiledTo next.1 next.2 ∧ rBound - next.1 < rBound - s.1 := by
    rintro ⟨uLower, sections⟩ next htiled hround
    simp only [sectionRound] at hround
    split at hround
    next hlt =>
      obtain rfl := Sum.inl.inj hround
      have hlower := hlt_next uLower hlt
      exact ⟨htiled.next hlower, Nat.sub_lt_sub_left hlt hlower⟩
    next => cases hround
  have hlast : ∀ s result, TiledTo s.1 s.2 → sectionRound rBound s = .inr result →
      Tile rBound result := by
    rintro ⟨uLower, sections⟩ result htiled hround
    simp only [sectionRound] at hround
    split at hround
    next => cases hround
    next hge =>
      cases hround
      exact htiled.tile (Nat.le_of_not_lt hge)
  exact leaves_of_measure hround hlast TiledTo.nil

/-- Past the last multiple of the section's size every lower bound is below `rBound`. -/
theorem sectionRound_wraps {rBound : ℕ} (hwrap : 2 ^ 32 - maxThreadSection < rBound) :
    ¬ Ends (sectionRound rBound) (0, []) := by
  have hround : ∀ s : ℕ × List Section, s.1 % maxThreadSection = 0 ∧ s.1 < 2 ^ 32 →
      ∃ next, sectionRound rBound s = .inl next ∧
        next.1 % maxThreadSection = 0 ∧ next.1 < 2 ^ 32 := by
    rintro ⟨uLower, sections⟩ ⟨haligned, hlt⟩
    have hbelow : uLower < rBound := by
      unfold maxThreadSection at *
      omega
    refine ⟨_, if_pos hbelow, ?_⟩
    unfold nextLower maxThreadSection at *
    omega
  exact not_ends_of_invariant hround ⟨rfl, by decide⟩

/-- The loop ends with sections that tile the index exactly when the bound leaves room for one more
section below `2 ^ 32`. -/
theorem endsTiled_iff (rBound : UInt32) :
    EndsTiled rBound.toNat ↔ rBound.toNat ≤ 2 ^ 32 - maxThreadSection := by
  constructor
  · intro ⟨sections, hleaves, _⟩
    by_contra hwrap
    exact sectionRound_wraps (Nat.lt_of_not_le hwrap) ⟨sections, hleaves⟩
  · exact sectionRound_tiled

/-- The greatest bound a `uint32_t` holds: the last section starts at `0xFFFFC000`, ends at 0, and
the loop goes on from there. -/
theorem sections_of_full_range_not_tiled : ¬ EndsTiled 0xFFFFFFFF := by
  intro ⟨sections, hleaves, _⟩
  exact sectionRound_wraps (by decide) ⟨sections, hleaves⟩

end Palmira.Collect
