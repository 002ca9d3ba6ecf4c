import Ece318.Bbfs.Walk

/-!
# What `delete_blocks` does to a store

Where the store has a table, the walk gives back one reference for each entry
it gets to see.
-/

namespace Ece318.Bbfs

open Ece318.Foundation

namespace Stores

variable {host : Host} {s s' : BbState} {t : Table} {fpath : Path} {inode : Nat}
  {indices : List Nat}

theorem walked (h : Stores host s t)
    (hwalked : Walked (fun index => generateHash host (t.data index)) inode t indices s s') :
    Stores host s' (t.releaseAll indices) where
  lastId_eq := by rw [hwalked.lastId_eq, h.lastId_eq, Table.releaseAll_length]
  hashes_eq := by
    rw [hwalked.hashes_eq, Option.getD_some, Table.bytes_eq_text]
    simp only [Table.data_releaseAll]
  hashes_exists := by simp [hwalked.hashes_eq]
  block_eq := by
    intro index record hrecord
    have hlt := Table.index_lt hrecord
    rw [Table.releaseAll_length] at hlt
    have hold := List.getElem?_eq_getElem hlt
    have hcount := t.count_releaseAll indices index
    have hdata := t.data_releaseAll indices index
    rw [Table.count_eq hrecord] at hcount
    rw [Table.data_eq hrecord, Table.data_eq hold] at hdata
    have holdCount := Table.count_eq hold
    rw [hwalked.block_eq index hlt, h.block_eq index _ hold, hdata]
    split_ifs <;> first | rfl | omega
  block_only := by
    intro id hid
    rw [Table.releaseAll_length]
    by_cases hnamed : ∃ index < t.records.length, id = padDecimal 3 (index + 1)
    · exact hnamed
    · refine h.block_only id ?_
      rwa [← hwalked.other_eq (.block id) (by simp) fun index hindex heq =>
        hnamed ⟨index, hindex, StorageFile.block.inj heq⟩]

theorem deleteBlocks (h : Stores host s t) (hgrants : host.Grants)
    (hpath : s.rootdir.resolve fpath = .ok inode) (hvalid : t.Valid indices)
    (hfile : s.rootdir.data inode = pointerBytes indices) :
    ∃ s', deleteBlocks host s fpath = .ok s' ∧
      Stores host s' (t.releaseAll
        (indices.take (Table.reached indices.length t 0 indices))) ∧
      s'.rootdir =
        if t.frees indices then s.rootdir.write inode [] else s.rootdir := by
  cases hhashes : s.file .hashes with
  | none =>
      -- no hashes file yet: then no file has an entry either
      have hnil : indices = [] := by
        cases indices with
        | nil => rfl
        | cons index indices =>
            have hrecord := List.getElem?_eq_getElem (hvalid index List.mem_cons_self)
            rw [h.hashes_of_mem hrecord] at hhashes
            contradiction
      subst hnil
      refine ⟨s, ?_, h, rfl⟩
      simp [Bbfs.deleteBlocks, openPath_of_resolve hgrants hpath, openFile, hgrants.fopen,
        hhashes]
  | some hashesfile =>
      have htext : s.file .hashes =
          some (t.text fun index => generateHash host (t.data index)) := by
        have hbytes := h.hashes_eq
        rw [hhashes, Option.getD_some] at hbytes
        rw [hhashes, hbytes, Table.bytes_eq_text]
      obtain ⟨s', hrun, hwalked⟩ := deleteBlocks_valid hgrants
        (fun _ => generateHash_length host _) (fun _ => nulFree_generateHash host _) htext hpath
        hvalid hfile
      refine ⟨s', hrun, h.walked hwalked, ?_⟩
      rw [hwalked.rootdir_eq, Table.frees_take_reached]

end Stores

end Ece318.Bbfs
