/-
  QueryAudit.Proofs.Disk — file trees in order

  A file tree is proper when its working directory is an absolute path and every file stands under
  one path, the one that all ways to it are resolved to. Writing keeps a tree proper. The scripts
  that a target stands for are then different files that exist.

  Main results: `Disk.Proper.write`, `Disk.Proper.scripts`.
-/

import QueryAudit.Proofs.Catalog
import QueryAudit.Proofs.Path

namespace QueryAudit.Disk

open List

variable {disk : Disk}

/-- A tree in which every file stands under one path. -/
structure Proper (disk : Disk) : Prop where
  absolute : Path.isAbsolute disk.base = true
  once : disk.files.names.Nodup
  plain : ∀ path ∈ disk.files.names, disk.resolve path = path

theorem Proper.empty {base : String} (h : Path.isAbsolute base = true) : Proper { base } where
  absolute := h
  once := nodup_nil
  plain _ hpath := nomatch hpath

/-- **Writing a file keeps a tree proper.** -/
theorem Proper.write (h : disk.Proper) (path : String) (bytes : ByteArray) :
    (disk.write path bytes).Proper where
  absolute := h.absolute
  once := Catalog.nodup_names_set h.once _ _
  plain other hother := by
    replace hother : other ∈ (disk.files.set (disk.resolve path) _).names := hother
    have hbase : (disk.write path bytes).base = disk.base := rfl
    rw [Catalog.names_set] at hother
    split at hother
    · exact h.plain other hother
    rcases mem_append.mp hother with hother | hother
    · exact h.plain other hother
    · rw [mem_singleton.mp hother]
      exact resolve_resolve h.absolute path

theorem walk_perm (disk : Disk) (directory : String) :
    (disk.walk directory).Perm (disk.files.names.filter fun path =>
      path ≠ directory && Path.within path directory) := by
  unfold walk
  refine ((mergeSort_perm _ _).map Prod.snd).trans ?_
  rw [map_map]
  exact Perm.of_eq (map_id _)

/-- **The scripts of a target are different files, each under its own path.** -/
theorem Proper.scripts (h : disk.Proper) (target : String) :
    (disk.scripts target).Nodup
      ∧ ∀ path ∈ disk.scripts target, disk.resolve path = path ∧ disk.isFile path = true := by
  unfold Disk.scripts
  split
  · next hfile =>
    split
    · refine ⟨pairwise_singleton _ _, fun path hpath => ?_⟩
      have hresolved := resolve_resolve h.absolute target
      rw [mem_singleton.mp hpath, isFile, file?, hresolved]
      exact ⟨rfl, hfile⟩
    · exact ⟨nodup_nil, fun _ hpath => nomatch hpath⟩
  · split
    · have hwalk := disk.walk_perm (disk.resolve target)
      refine ⟨(hwalk.nodup_iff.mpr (h.once.filter _)).filter _, fun path hpath => ?_⟩
      obtain ⟨hpath, hscript⟩ := mem_filter.mp hpath
      have hname := (mem_filter.mp (hwalk.mem_iff.mp hpath)).1
      exact ⟨h.plain path hname, (Bool.and_eq_true_iff.mp hscript).1⟩
    · exact ⟨nodup_nil, fun _ hpath => nomatch hpath⟩

end QueryAudit.Disk
