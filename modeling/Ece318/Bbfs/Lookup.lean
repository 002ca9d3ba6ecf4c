import Mathlib.Data.List.Find
import Ece318.Bbfs.HashesFile
import Ece318.Bbfs.Operations

/-!
# Which record `compare_hashes` finds

The scan needs no well-kept table.  On any run of records it answers the id
that stands in the first live one with the hash, wherever that is and whatever
the ids say.
-/

namespace Ece318.Bbfs

open Ece318.Foundation

namespace HashLine

structure WellFormed (line : HashLine) : Prop where
  id_digits : ∀ byte ∈ line.id, isDigit byte = true
  counter_digits : ∀ byte ∈ line.counter, isDigit byte = true
  hash_nulFree : NulFree line.hash

/-- The first record that has the hash and not the counter 00. -/
def lookup (lines : List HashLine) (hash : Bytes) : Option HashLine :=
  lines.find? fun line => line.hash = hash ∧ line.counter ≠ [48, 48]

namespace WellFormed

variable {line : HashLine}

theorem exists_id (h : line.WellFormed) : ∃ id < 1000, line.id = padDecimal 3 id :=
  exists_padDecimal line.id_length (by decide) h.id_digits

theorem exists_counter (h : line.WellFormed) : ∃ count < 100, line.counter = padDecimal 2 count :=
  exists_padDecimal line.counter_length (by decide) h.counter_digits

theorem isMatch_eq (h : line.WellFormed) (hash : Bytes) :
    isMatch hash line = decide (line.hash = hash ∧ line.counter ≠ [48, 48]) := by
  obtain ⟨count, -, hcount⟩ := h.exists_counter
  have hzero : formatInt 2 0 = [48, 48] := by decide
  have hcounter : cString line.counter = line.counter := by rw [hcount, cString_padDecimal]
  simp only [isMatch, h.hash_nulFree.cString_eq, hcounter, hzero]

end WellFormed

theorem find?_isMatch {lines : List HashLine} (h : ∀ line ∈ lines, line.WellFormed)
    (hash : Bytes) : lines.find? (isMatch hash) = lookup lines hash :=
  List.find?_congr fun line hline => (h line hline).isMatch_eq hash

end HashLine

section

variable {host : Host} {s : BbState} {lines : List HashLine}

theorem compareHashes_eq_lookup (hgrant : host.grants .compareHashes = true)
    (hlines : ∀ line ∈ lines, line.WellFormed)
    (hfile : s.file .hashes = some (lines.map HashLine.bytes).flatten) (hash : Bytes) :
    compareHashes host s hash =
      (match HashLine.lookup lines hash with
        | some line => atoi line.id
        | none => s.lastId + 1,
      s.setFile .hashes (lines.map HashLine.bytes).flatten) := by
  have hfuel : lines.length - 0 < (lines.map HashLine.bytes).flatten.length + 1 := by
    rw [flatten_length (HashLine.uniform_bytes lines), List.length_map]
    omega
  have hscan := HashLine.compareLoop_lines s.lastId lines (show ([] : Bytes).length < 45 by decide)
    hash hfuel
  rw [List.append_nil, List.drop_zero, HashLine.find?_isMatch hlines] at hscan
  rw [compareHashes, if_pos hgrant, hfile, Option.getD_some]
  exact congrArg (·, _) hscan

/--
`compare_hashes` answers the id in the first live record with the hash, or else the
one after `last_id`, and changes no file.
-/
theorem compareHashes_first (hgrant : host.grants .compareHashes = true)
    (hlines : ∀ line ∈ lines, line.WellFormed)
    (hfile : s.file .hashes = some (lines.map HashLine.bytes).flatten) (hash : Bytes) :
    ∃ answer s', compareHashes host s hash = (answer, s') ∧
      (match HashLine.lookup lines hash with
        | some line => formatInt 3 answer = line.id
        | none => answer = s.lastId + 1) ∧
      s'.lastId = s.lastId ∧ s'.rootdir = s.rootdir ∧ ∀ name, s'.file name = s.file name := by
  refine ⟨_, _, compareHashes_eq_lookup hgrant hlines hfile hash, ?_, rfl, rfl, fun name => ?_⟩
  · cases hfind : HashLine.lookup lines hash with
    | none => rfl
    | some line =>
        obtain ⟨id, -, hid⟩ := (hlines line (List.mem_of_find?_eq_some hfind)).exists_id
        simp only [hid, atoi_padDecimal, formatInt_natCast]
  · rw [BbState.file_setFile]
    split
    · subst name
      exact hfile.symm
    · rfl

end

/-! ## Files that may be damaged -/

theorem window_length (hashesfile : Bytes) (index : Fin (hashesfile.length / 45))
    {inner count : Nat} (hinner : inner + count ≤ 45) :
    (readAt hashesfile (45 * index + inner) count).length = count := by
  have hindex := index.isLt
  rw [readAt_length]
  omega

/-- The complete lines of a hashes file, whatever stands in them. -/
def linesOf (hashesfile : Bytes) : List HashLine :=
  List.ofFn fun index : Fin (hashesfile.length / 45) =>
    { id := readAt hashesfile (45 * index + 0) 3
      counter := readAt hashesfile (45 * index + 3) 2
      hash := readAt hashesfile (45 * index + 5) 40
      id_length := window_length hashesfile index (by decide)
      counter_length := window_length hashesfile index (by decide)
      hash_length := window_length hashesfile index (by decide) }

theorem map_linesOf (hashesfile : Bytes) :
    (linesOf hashesfile).map HashLine.bytes = entries 45 hashesfile := by
  apply List.ext_getElem
  · simp [linesOf]
  · intro index hleft hright
    simp only [linesOf, entries, HashLine.bytes, List.getElem_map, List.getElem_ofFn,
      List.getElem_range, Nat.add_zero]
    rw [← readAt_add hashesfile (45 * index) 3 2, ← readAt_add hashesfile (45 * index) 5 40]

theorem flatten_linesOf (hashesfile : Bytes) :
    ((linesOf hashesfile).map HashLine.bytes).flatten ++
      hashesfile.drop (45 * (hashesfile.length / 45)) = hashesfile := by
  rw [map_linesOf, flatten_entries_append (by decide)]

theorem compareHashes_eq_find {host : Host} (hgrant : host.grants .compareHashes = true)
    (s : BbState) (hash : Bytes) :
    compareHashes host s hash =
      (match (linesOf ((s.file .hashes).getD [])).find? (HashLine.isMatch hash) with
        | some line => atoi line.id
        | none => s.lastId + 1,
      s.setFile .hashes ((s.file .hashes).getD [])) := by
  have hsplit := flatten_linesOf ((s.file .hashes).getD [])
  have htail : (((s.file .hashes).getD []).drop
      (45 * (((s.file .hashes).getD []).length / 45))).length < 45 := by
    rw [List.length_drop]
    omega
  have hfuel : (linesOf ((s.file .hashes).getD [])).length - 0 <
      ((s.file .hashes).getD []).length + 1 := by
    rw [linesOf, List.length_ofFn]
    omega
  have hscan := HashLine.compareLoop_lines s.lastId (linesOf ((s.file .hashes).getD [])) htail
    hash hfuel
  rw [hsplit, List.drop_zero] at hscan
  rw [compareHashes, if_pos hgrant]
  exact congrArg (·, _) hscan

def repeatedLines : List HashLine :=
  [⟨[48, 48, 49], [48, 48], List.replicate 40 97, rfl, rfl, rfl⟩,
    ⟨[48, 48, 50], [48, 51], List.replicate 40 97, rfl, rfl, rfl⟩,
    ⟨[48, 48, 51], [48, 49], List.replicate 40 97, rfl, rfl, rfl⟩]

theorem wellFormed_repeatedLines : ∀ line ∈ repeatedLines, line.WellFormed := by
  intro line hline
  simp only [repeatedLines, List.mem_cons, List.not_mem_nil, or_false] at hline
  rcases hline with rfl | rfl | rfl <;>
    exact ⟨List.all_eq_true.mp rfl, List.all_eq_true.mp rfl, by simp [NulFree]⟩

theorem compareHashes_first_repeatedLines :
    ∃ answer s', compareHashes (.granting sampleSha1)
        (freshMount.setFile .hashes (repeatedLines.map HashLine.bytes).flatten)
        (List.replicate 40 97) = (answer, s') ∧ formatInt 3 answer = [48, 48, 50] := by
  have hfile : (freshMount.setFile .hashes (repeatedLines.map HashLine.bytes).flatten).file
      .hashes = some (repeatedLines.map HashLine.bytes).flatten := by simp
  have hgrant : (Host.granting sampleSha1).grants .compareHashes = true := rfl
  obtain ⟨answer, s', hcompare, hanswer, -⟩ := compareHashes_first hgrant
    wellFormed_repeatedLines hfile (List.replicate 40 97)
  exact ⟨answer, s', hcompare, hanswer⟩

end Ece318.Bbfs
