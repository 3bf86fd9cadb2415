import Mathlib.Data.List.Basic

/-!
# Files and power cuts

A `DurableFile` is a file with the contents that the program sees and the contents that are
known to be on the disk. Bytes become durable when the file is synchronised, or at any moment
after they have been written (`Persists`). A truncation may become durable at any moment as
well; until then the disk has the contents from before it. `Survives f bytes` says that a
power cut may leave the contents `bytes`, and `unsynced` is the part that it may take away.
-/

variable {α : Type*}

/-- A file: its contents, and those that are durable. While a truncation is not durable,
    `durable` belongs to the contents from before it. -/
structure DurableFile (α : Type*) where
  written : List α
  durable : List α
  truncating : Bool := false
  consistent : truncating = false → durable <+: written

namespace DurableFile

/-- A file with the same history of other elements. -/
def map {β : Type*} (g : α → β) (f : DurableFile α) : DurableFile β where
  written := f.written.map g
  durable := f.durable.map g
  truncating := f.truncating
  consistent h := (f.consistent h).map g

/-- A file whose contents are all durable. -/
def synced (bytes : List α) : DurableFile α where
  written := bytes
  durable := bytes
  consistent _ := List.prefix_rfl

/-- Bytes are written at the end. -/
def write (f : DurableFile α) (bytes : List α) : DurableFile α where
  written := f.written ++ bytes
  durable := f.durable
  truncating := f.truncating
  consistent h := (f.consistent h).trans (List.prefix_append _ _)

/-- `fsync`. -/
def sync (f : DurableFile α) : DurableFile α := synced f.written

/-- The file is truncated. -/
def truncate (f : DurableFile α) : DurableFile α where
  written := []
  durable := f.durable
  truncating := true
  consistent := nofun

/-- The part of the contents that is not known to be on the disk. -/
def unsynced (f : DurableFile α) : List α :=
  if f.truncating = true then f.written else f.written.drop f.durable.length

/-- Something becomes durable without `fsync`. -/
inductive Persists : DurableFile α → DurableFile α → Prop where
  /-- Some more of the bytes. -/
  | bytes {f : DurableFile α} {durable : List α} (hfixed : f.truncating = false)
      (hgrow : f.durable <+: durable) (hwritten : durable <+: f.written) :
      Persists f { written := f.written, durable, consistent := fun _ => hwritten }
  /-- The truncation. -/
  | truncation {f : DurableFile α} (htruncating : f.truncating = true) :
      Persists f
        { written := f.written, durable := [], consistent := fun _ => List.nil_prefix }

/-- What a power cut may leave: the durable bytes and any prefix of the others. A truncation
    that is not durable may become so at this moment. -/
def Survives (f : DurableFile α) (bytes : List α) : Prop :=
  if f.truncating = true then bytes = f.durable ∨ bytes <+: f.written
  else f.durable <+: bytes ∧ bytes <+: f.written

/-- All bytes are durable, and no truncation is missing. -/
def Settled (f : DurableFile α) : Prop :=
  f.truncating = false ∧ f.durable = f.written

/-- The program sees no difference. -/
theorem Persists.written_eq {f g : DurableFile α} (h : Persists f g) : g.written = f.written := by
  cases h <;> rfl

/-- What becomes durable leaves fewer possibilities for a power cut. -/
theorem Persists.survives {f g : DurableFile α} (h : Persists f g) {bytes : List α}
    (hsurvives : g.Survives bytes) : f.Survives bytes := by
  cases h with
  | bytes hfixed hgrow hwritten =>
    obtain ⟨hdurable, hbytes⟩ := hsurvives
    rw [Survives, if_neg (by simp [hfixed])]
    exact ⟨hgrow.trans hdurable, hbytes⟩
  | truncation htruncating =>
    rw [Survives, if_pos htruncating]
    exact .inr hsurvives.2

/-- A settled file survives as it is. -/
theorem Settled.survives_iff {f : DurableFile α} (h : f.Settled) {bytes : List α} :
    f.Survives bytes ↔ bytes = f.written := by
  rw [Survives, if_neg (by simp [h.1]), h.2]
  constructor
  · rintro ⟨hle, hge⟩
    exact hge.eq_of_length (Nat.le_antisymm hge.length_le hle.length_le)
  · rintro rfl
    exact ⟨List.prefix_rfl, List.prefix_rfl⟩

/-- Nothing is left to become durable in a settled file. -/
theorem Settled.persists {f g : DurableFile α} (h : f.Settled) (hpersists : Persists f g) :
    g.Settled ∧ g.written = f.written := by
  cases hpersists with
  | bytes hfixed hgrow hwritten =>
    refine ⟨⟨rfl, ?_⟩, rfl⟩
    rw [h.2] at hgrow
    exact hwritten.eq_of_length (Nat.le_antisymm hwritten.length_le hgrow.length_le)
  | truncation htruncating => rw [h.1] at htruncating; cases htruncating

/-- Of a file that is all durable, nothing is missing. -/
theorem settled_synced (bytes : List α) : (synced bytes).Settled := ⟨rfl, rfl⟩

/-- What is written is not yet synchronised. -/
theorem unsynced_write (f : DurableFile α) (bytes : List α) :
    (f.write bytes).unsynced = f.unsynced ++ bytes := by
  show (if f.truncating = true then f.written ++ bytes
    else (f.written ++ bytes).drop f.durable.length) = _
  unfold unsynced
  split
  · rfl
  · rename_i hfixed
    have hprefix : f.durable <+: f.written := f.consistent (by simpa using hfixed)
    exact List.drop_append_of_le_length hprefix.length_le

/-- A settled file has nothing to synchronise. -/
theorem Settled.unsynced {f : DurableFile α} (h : f.Settled) : f.unsynced = [] := by
  rw [DurableFile.unsynced, if_neg (by simp [h.1]), h.2, List.drop_length]

theorem unsynced_sync (f : DurableFile α) : f.sync.unsynced = [] :=
  (settled_synced f.written).unsynced

theorem unsynced_truncate (f : DurableFile α) : f.truncate.unsynced = [] := rfl

/-- What is not yet synchronised, read in another way. -/
theorem unsynced_map {β : Type*} (g : α → β) (f : DurableFile α) :
    (f.map g).unsynced = f.unsynced.map g := by
  unfold unsynced map
  split
  · rfl
  · rw [List.map_drop, List.length_map]

end DurableFile
