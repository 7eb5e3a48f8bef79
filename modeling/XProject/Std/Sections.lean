import Mathlib.Data.List.Basic

/-!
# Sections in a log

A program that marks where its sections begin and end writes one flat sequence of
marks; a reader that keeps the sections still open on a stack rebuilds their
nesting. A section that is never closed costs exactly that much: the reader never
meets an end without a beginning, and finishes with one section too many for each.
-/

namespace XProject.Std

/-- What is written at either end of a section. -/
inductive Mark (Label : Type) where
  | begun (label : Label)
  | ended
  deriving DecidableEq

/-- Sections one behind the other, with what each has inside. -/
inductive Sections (Label : Type) where
  | none
  | closed (label : Label) (inner behind : Sections Label)
  /-- A section that begins and does not end. -/
  | left (label : Label) (behind : Sections Label)
  deriving DecidableEq

namespace Sections

variable {Label Other : Type}

/-- What the program writes. -/
def marks : Sections Label → List (Mark Label)
  | none => []
  | closed label inner behind => .begun label :: (inner.marks ++ .ended :: behind.marks)
  | left label behind => .begun label :: behind.marks

/-- How many sections do not end. -/
def lost : Sections Label → Nat
  | none => 0
  | closed _ inner behind => inner.lost + behind.lost
  | left _ behind => behind.lost + 1

/-- The sections under other labels. -/
def map (change : Label → Other) : Sections Label → Sections Other
  | none => none
  | closed label inner behind => closed (change label) (inner.map change) (behind.map change)
  | left label behind => left (change label) (behind.map change)

/-- Some sections and then some others. -/
def append : Sections Label → Sections Label → Sections Label
  | none, later => later
  | closed label inner behind, later => closed label inner (behind.append later)
  | left label behind, later => left label (behind.append later)

/-- The labels, in the order in which the sections begin. -/
def labels : Sections Label → List Label
  | none => []
  | closed label inner behind => label :: (inner.labels ++ behind.labels)
  | left label behind => label :: behind.labels

@[simp] theorem append_none (sections : Sections Label) : sections.append none = sections := by
  induction sections with
  | none => rfl
  | closed label inner behind _ behindKept => simp only [append, behindKept]
  | left label behind behindKept => simp only [append, behindKept]

theorem append_assoc (first second third : Sections Label) :
    (first.append second).append third = first.append (second.append third) := by
  induction first with
  | none => rfl
  | closed label inner behind _ behindSame => simp only [append, behindSame]
  | left label behind behindSame => simp only [append, behindSame]

@[simp] theorem lost_map (change : Label → Other) (sections : Sections Label) :
    (sections.map change).lost = sections.lost := by
  induction sections with
  | none => rfl
  | closed label inner behind innerSame behindSame => simp only [map, lost, innerSame, behindSame]
  | left label behind behindSame => simp only [map, lost, behindSame]

/-- Sections keep their labels exactly when the change leaves each of them as it is. -/
theorem map_eq_self_iff {change : Label → Label} {sections : Sections Label} :
    sections.map change = sections ↔ ∀ label ∈ sections.labels, change label = label := by
  induction sections with
  | none => simp [map, labels]
  | closed label inner behind innerIff behindIff =>
      simp only [map, labels, closed.injEq, innerIff, behindIff, List.forall_mem_cons,
        List.forall_mem_append]
  | left label behind behindIff =>
      simp only [map, labels, left.injEq, behindIff, List.forall_mem_cons]

end Sections

/-- A reader between two marks: the sections read where it stands, and around them the
open ones, innermost first, with what stood before each. -/
structure SectionReader (Label : Type) where
  current : Sections Label
  outer : List (Label × Sections Label)

namespace SectionReader

variable {Label : Type}

def start : SectionReader Label := ⟨.none, []⟩

/-- Reading one mark; an end fails where nothing is open. -/
def read (reader : SectionReader Label) : Mark Label → Option (SectionReader Label)
  | .begun label => some ⟨.none, (label, reader.current) :: reader.outer⟩
  | .ended =>
      match reader.outer with
      | [] => none
      | (label, before) :: outer => some ⟨before.append (.closed label reader.current .none), outer⟩

def readAll (reader : SectionReader Label) : List (Mark Label) → Option (SectionReader Label)
  | [] => some reader
  | mark :: marks => (reader.read mark).bind fun next => next.readAll marks

theorem readAll_append (front back : List (Mark Label)) (reader : SectionReader Label) :
    reader.readAll (front ++ back) =
      (reader.readAll front).bind fun between => between.readAll back := by
  induction front generalizing reader with
  | nil => rfl
  | cons mark front frontReads =>
      simp only [List.cons_append, readAll, frontReads, Option.bind_assoc]

/-- Where every section ends, the reader finds them all behind what it had. -/
theorem readAll_marks {sections : Sections Label} (ends : sections.lost = 0)
    (reader : SectionReader Label) :
    reader.readAll sections.marks = some ⟨reader.current.append sections, reader.outer⟩ := by
  induction sections generalizing reader with
  | none => simp only [Sections.marks, readAll, Sections.append_none]
  | closed label inner behind innerReads behindReads =>
      simp only [Sections.lost, Nat.add_eq_zero_iff] at ends
      simp only [Sections.marks, readAll, read, Option.bind_some, readAll_append,
        innerReads ends.1, behindReads ends.2, Sections.append_assoc, Sections.append]
  | left label behind _ =>
      simp only [Sections.lost] at ends
      omega

/-- Whatever does not end, no end is read where nothing is open, and what stays open is
what did not end. -/
theorem readAll_open (sections : Sections Label) (reader : SectionReader Label) :
    ∃ after, reader.readAll sections.marks = some after ∧
      after.outer.length = reader.outer.length + sections.lost := by
  induction sections generalizing reader with
  | none => exact ⟨reader, rfl, rfl⟩
  | closed label inner behind innerReads behindReads =>
      obtain ⟨inside, innerRead, deep⟩ :=
        innerReads ⟨.none, (label, reader.current) :: reader.outer⟩
      -- What the inner sections leave open stands inside, so there is one to end.
      obtain ⟨⟨name, before⟩, outer, stack⟩ : ∃ top outer, inside.outer = top :: outer := by
        apply List.exists_cons_of_length_pos
        rw [deep, List.length_cons]
        omega
      obtain ⟨after, behindRead, depth⟩ :=
        behindReads ⟨before.append (.closed name inside.current .none), outer⟩
      have one : outer.length + 1 = reader.outer.length + 1 + inner.lost := by
        rw [← List.length_cons, ← stack, deep, List.length_cons]
      refine ⟨after, ?_, ?_⟩
      · simp only [Sections.marks, readAll, read, Option.bind_some, readAll_append, innerRead,
          stack, behindRead]
      · simp only [depth, Sections.lost]
        omega
  | left label behind behindReads =>
      obtain ⟨after, behindRead, depth⟩ :=
        behindReads ⟨.none, (label, reader.current) :: reader.outer⟩
      refine ⟨after, behindRead, ?_⟩
      simp only [depth, Sections.lost, List.length_cons]
      omega

/-- The sections are read as they are, with nothing open, exactly when each of them ends. -/
theorem readAll_start_iff {sections read : Sections Label} :
    start.readAll sections.marks = some ⟨read, []⟩ ↔ read = sections ∧ sections.lost = 0 := by
  constructor
  · intro done
    obtain ⟨after, same, depth⟩ := readAll_open sections start
    have ends : sections.lost = 0 := by
      rw [done] at same
      cases same
      simpa [start] using depth.symm
    have whole := readAll_marks ends start
    rw [done] at whole
    simp only [start, Sections.append, Option.some.injEq, mk.injEq] at whole
    exact ⟨whole.1, ends⟩
  · rintro ⟨rfl, ends⟩
    exact readAll_marks ends start

end SectionReader

end XProject.Std
