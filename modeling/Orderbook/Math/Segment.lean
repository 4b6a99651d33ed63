/-
# Linked cells in an index memory

Cells live in a memory addressed by indices and are chained through index
fields. The list of cells a chain visits is logical data: it is never stored,
and every operation on the links is described by what it does to that list.

`Path` follows one link, as a free list does. `Segment` follows a pair of links
in both directions, from a cell before the first to a cell after the last. A
whole queue is the segment between two copies of the null index, so appending,
unlinking and popping are all cuts and joins of segments.
-/

import Mathlib.Data.List.Basic
import Mathlib.Data.List.Nodup

namespace Orderbook.Math

universe u

variable {ι : Type u}

/-- Following `next` from the first cell visits exactly `cells` and then
arrives at `stop`. -/
def Path (next : ι → ι) : List ι → ι → Prop
  | [], _ => True
  | cell :: rest, stop => next cell = rest.head?.getD stop ∧ Path next rest stop

@[simp]
theorem path_nil (next : ι → ι) (stop : ι) : Path next [] stop := trivial

@[simp]
theorem path_cons {next : ι → ι} {cell stop : ι} {rest : List ι} :
    Path next (cell :: rest) stop ↔
      next cell = rest.head?.getD stop ∧ Path next rest stop := Iff.rfl

/-- A path reads only the links of its own cells. -/
theorem Path.congr {next next' : ι → ι} {cells : List ι} {stop : ι}
    (hpath : Path next cells stop) (hsame : ∀ cell ∈ cells, next' cell = next cell) :
    Path next' cells stop := by
  induction cells with
  | nil => trivial
  | cons cell rest ih =>
      obtain ⟨hcell, hrest⟩ := hpath
      refine ⟨(hsame cell List.mem_cons_self).trans hcell, ih hrest ?_⟩
      intro other hother
      exact hsame other (List.mem_cons_of_mem cell hother)

/-- The cells are chained both ways in order. The first cell points back to
`before` and the last one points on to `after`. -/
def Segment (next prev : ι → ι) : ι → List ι → ι → Prop
  | _, [], _ => True
  | before, cell :: rest, after =>
      prev cell = before ∧ next cell = rest.head?.getD after ∧
        Segment next prev cell rest after

variable {next prev next' prev' : ι → ι} {before after : ι}

@[simp]
theorem segment_nil : Segment next prev before [] after := trivial

@[simp]
theorem segment_cons {cell : ι} {rest : List ι} :
    Segment next prev before (cell :: rest) after ↔
      prev cell = before ∧ next cell = rest.head?.getD after ∧
        Segment next prev cell rest after := Iff.rfl

/-- A segment reads only the links of its own cells. -/
theorem Segment.congr {cells : List ι} (hsegment : Segment next prev before cells after)
    (hnext : ∀ cell ∈ cells, next' cell = next cell)
    (hprev : ∀ cell ∈ cells, prev' cell = prev cell) :
    Segment next' prev' before cells after := by
  induction cells generalizing before with
  | nil => trivial
  | cons cell rest ih =>
      obtain ⟨hback, hforward, hrest⟩ := hsegment
      refine ⟨(hprev cell List.mem_cons_self).trans hback,
        (hnext cell List.mem_cons_self).trans hforward, ih hrest ?_ ?_⟩
      · intro other hother
        exact hnext other (List.mem_cons_of_mem cell hother)
      · intro other hother
        exact hprev other (List.mem_cons_of_mem cell hother)

/-- A segment may be cut anywhere: each half ends where the other begins. -/
theorem segment_append {first second : List ι} :
    Segment next prev before (first ++ second) after ↔
      Segment next prev before first (second.head?.getD after) ∧
        Segment next prev (first.getLast?.getD before) second after := by
  induction first generalizing before with
  | nil => simp
  | cons cell rest ih =>
      rw [List.cons_append, segment_cons, segment_cons, ih]
      have hhead : (rest ++ second).head?.getD after =
          rest.head?.getD (second.head?.getD after) := by
        cases rest <;> simp
      have hlast : (cell :: rest).getLast?.getD before = rest.getLast?.getD cell := by
        rw [List.getLast?_cons, Option.getD_some]
      rw [hhead, hlast]
      tauto

/-- Redirecting the forward link of the last cell moves the end of a segment. -/
theorem Segment.retarget {cells : List ι} {after' : ι}
    (hsegment : Segment next prev before cells after) (hnodup : cells.Nodup)
    (hprev : ∀ cell ∈ cells, prev' cell = prev cell)
    (hnext : ∀ cell ∈ cells, cells.getLast? ≠ some cell → next' cell = next cell)
    (hlast : ∀ cell, cells.getLast? = some cell → next' cell = after') :
    Segment next' prev' before cells after' := by
  rcases List.eq_nil_or_concat cells with rfl | ⟨init, last, rfl⟩
  · trivial
  · simp only [List.concat_eq_append] at *
    rw [segment_append] at hsegment ⊢
    have hlast' : (init ++ [last]).getLast? = some last := by simp
    have hfresh : last ∉ init := by
      intro hmem
      exact (List.nodup_append.mp hnodup).2.2 last hmem last List.mem_cons_self rfl
    refine ⟨?_, ?_⟩
    · refine (hsegment.1.congr ?_ ?_ : Segment next' prev' before init last)
      · intro cell hcell
        refine hnext cell (List.mem_append_left _ hcell) ?_
        rw [hlast', ne_eq, Option.some.injEq]
        rintro rfl
        exact hfresh hcell
      · intro cell hcell
        exact hprev cell (List.mem_append_left _ hcell)
    · refine ⟨(hprev last (by simp)).trans hsegment.2.1, ?_, trivial⟩
      simpa using hlast last hlast'

/-- Redirecting the backward link of the first cell moves the start of a segment. -/
theorem Segment.reroot {cells : List ι} {before' : ι}
    (hsegment : Segment next prev before cells after) (hnodup : cells.Nodup)
    (hnext : ∀ cell ∈ cells, next' cell = next cell)
    (hprev : ∀ cell ∈ cells, cells.head? ≠ some cell → prev' cell = prev cell)
    (hfirst : ∀ cell, cells.head? = some cell → prev' cell = before') :
    Segment next' prev' before' cells after := by
  cases cells with
  | nil => trivial
  | cons cell rest =>
      obtain ⟨hback, hforward, hrest⟩ := hsegment
      refine ⟨hfirst cell rfl, (hnext cell List.mem_cons_self).trans hforward,
        hrest.congr ?_ ?_⟩
      · intro other hother
        exact hnext other (List.mem_cons_of_mem cell hother)
      · intro other hother
        refine hprev other (List.mem_cons_of_mem cell hother) ?_
        rw [List.head?_cons, ne_eq, Option.some.injEq]
        rintro rfl
        exact (List.nodup_cons.mp hnodup).1 hother

/-- The links of a cell inside a segment are its two neighbours. -/
theorem Segment.links {front back : List ι} {cell : ι}
    (hsegment : Segment next prev before (front ++ cell :: back) after) :
    prev cell = front.getLast?.getD before ∧ next cell = back.head?.getD after := by
  rw [segment_append] at hsegment
  exact ⟨hsegment.2.1, hsegment.2.2.1⟩

/-- Following the forward links of a segment is a path. -/
theorem Segment.path {cells : List ι} (hsegment : Segment next prev before cells after) :
    Path next cells after := by
  induction cells generalizing before with
  | nil => trivial
  | cons cell rest ih => exact ⟨hsegment.2.1, ih hsegment.2.2⟩

end Orderbook.Math
