import Ece318.Bbfs.TableRuns

/-!
# What a block file holds

`write_blocks` hands its buffer on as a C string, so the block file holds the
buffer up to its first NUL, and two buffers that agree up to there are one
block.
-/

namespace Ece318.Bbfs

open Ece318.Foundation

section

variable {host : Host} {s : BbState} {t : Table} {contents : Set Bytes} {buf : Bytes}

theorem Stores.writeBlocks_content (h : Stores host s t) (hgrants : host.Grants)
    (hinj : Set.InjOn host.sha1 contents) (hall : t.All (· ∈ contents))
    (hbuf : cString buf ∈ contents) (hsize : buf.length ≤ maxBlockSize)
    (hlimits : WithinLimits host s buf) :
    ∃ s', Bbfs.writeBlocks host s buf = .ok (padDecimal 3 ((t.store host buf).1 + 1), s') ∧
      Stores host s' (t.store host buf).2 ∧
      (t.store host buf).2.data (t.store host buf).1 = cString buf ∧
      s'.file (blockOf (t.store host buf).1) = some (cString buf) := by
  have hroom := (h.withinLimits_iff hgrants buf).mp hlimits
  obtain ⟨s', hwrite, hstores, -⟩ := h.writeBlocks hgrants hsize hroom
  have hdata := Table.data_store_self hinj hall hbuf hroom
  have hlive : (t.store host buf).2.count (t.store host buf).1 ≠ 0 := by
    rw [Table.count_store hroom, if_pos rfl]
    omega
  exact ⟨s', hwrite, hstores, hdata, by rw [hstores.block_live hlive, hdata]⟩

end

/--
Two buffers stored one after the other are held byte for byte, under ids that
are equal only for equal buffers, if and only if neither has a NUL in it.
-/
theorem writeBlocks_faithful_iff (sha1 : Bytes → Vector UInt8 20) (requests : List Request)
    (first second : Bytes) (hfirst : first.length ≤ maxBlockSize)
    (hsecond : second.length ≤ maxBlockSize)
    (hinj : Set.InjOn sha1 (storedContents requests ∪ {cString first, cString second}))
    (hrun : Along (serve (.granting sha1)) (KeepsTable (.granting sha1)) freshMount
      requests) :
    ∃ s, run (serve (.granting sha1)) freshMount requests = .ok s ∧
      (WithinLimits (.granting sha1) s first →
        ∃ id₁ s₁, writeBlocks (.granting sha1) s first = .ok (id₁, s₁) ∧
          (WithinLimits (.granting sha1) s₁ second →
            ∃ id₂ s₂, writeBlocks (.granting sha1) s₁ second = .ok (id₂, s₂) ∧
              ((s₁.file (.block id₁) = some first ∧ s₂.file (.block id₂) = some second ∧
                  (id₁ = id₂ → first = second)) ↔
                NulFree first ∧ NulFree second))) := by
  have hgrants := Host.granting_grants sha1
  obtain ⟨s, hok, t, hs, hstored⟩ := run_stores hgrants hrun
  have hall : t.All (· ∈ storedContents requests ∪ {cString first, cString second}) :=
    fun record hrecord => .inl (hstored record hrecord)
  refine ⟨s, hok, fun hlimits₁ => ?_⟩
  obtain ⟨s₁, hwrite₁, hs₁, hdata₁, hblock₁⟩ := hs.writeBlocks_content hgrants hinj hall
    (.inr (.inl rfl)) hfirst hlimits₁
  refine ⟨_, s₁, hwrite₁, fun hlimits₂ => ?_⟩
  obtain ⟨s₂, hwrite₂, hs₂, hdata₂, hblock₂⟩ := hs₁.writeBlocks_content hgrants hinj
    (hall.store (.inr (.inl rfl))) (.inr (.inr rfl)) hsecond hlimits₂
  refine ⟨_, s₂, hwrite₂, ?_⟩
  rw [hblock₁, hblock₂, Option.some.injEq, Option.some.injEq, cString_eq_self_iff,
    cString_eq_self_iff]
  refine ⟨fun h => ⟨h.1, h.2.1⟩, fun ⟨hnul₁, hnul₂⟩ => ⟨hnul₁, hnul₂, fun hid => ?_⟩⟩
  -- one id is one record, and a second store does not change its content
  have hlt := Table.store_lt (.granting sha1)
    ((hs.withinLimits_iff hgrants first).mp hlimits₁)
  have hindex : (t.store (.granting sha1) first).1 =
      ((t.store (.granting sha1) first).2.store (.granting sha1) second).1 :=
    idText_injective hid
  rw [← hindex, Table.data_store hlt, hdata₁, hnul₁.cString_eq, hnul₂.cString_eq] at hdata₂
  exact hdata₂

theorem sampleSha1_injOn_sparseRun : Set.InjOn sampleSha1
    (storedContents sparseRun ∪ {cString [98], cString [97]}) := by
  have hsub : storedContents sparseRun ∪ {cString [98], cString [97]} ⊆ {[97], [98]} := by
    rintro content (⟨path, buf, offset, hmem, rfl⟩ | rfl | rfl)
    · simp only [sparseRun, List.mem_cons, Request.write.injEq, List.not_mem_nil,
        reduceCtorEq, false_or, or_false] at hmem
      rcases hmem with ⟨-, rfl, -⟩ | ⟨-, rfl, -⟩ | ⟨-, rfl, -⟩ <;> decide
    · decide
    · decide
  exact sampleSha1_injOn.mono hsub

theorem withinLimits_sparseRun :
    ∃ s, run (serve (.granting sampleSha1)) freshMount sparseRun = .ok s ∧
      WithinLimits (.granting sampleSha1) s [98] ∧
      ∃ stored, writeBlocks (.granting sampleSha1) s [98] = .ok stored ∧
        WithinLimits (.granting sampleSha1) stored.2 [97] := by
  decide +kernel

theorem writeBlocks_faithful_iff_sparseRun :
    ∃ s, run (serve (.granting sampleSha1)) freshMount sparseRun = .ok s ∧
      ∃ id₁ s₁, writeBlocks (.granting sampleSha1) s [98] = .ok (id₁, s₁) ∧
        ∃ id₂ s₂, writeBlocks (.granting sampleSha1) s₁ [97] = .ok (id₂, s₂) ∧
          s₁.file (.block id₁) = some [98] ∧ s₂.file (.block id₂) = some [97] ∧ id₁ ≠ id₂ := by
  obtain ⟨s, hs, hstores⟩ := writeBlocks_faithful_iff sampleSha1 sparseRun [98] [97]
    (by decide) (by decide) sampleSha1_injOn_sparseRun (by decide +kernel)
  obtain ⟨s', hs', hlimits₁, stored, hstored, hlimits₂⟩ := withinLimits_sparseRun
  obtain rfl := Except.ok.inj (hs.symm.trans hs')
  obtain ⟨id₁, s₁, hwrite₁, hstores⟩ := hstores hlimits₁
  obtain rfl := Except.ok.inj (hstored.symm.trans hwrite₁)
  obtain ⟨id₂, s₂, hwrite₂, hiff⟩ := hstores hlimits₂
  obtain ⟨hfirst, hsecond, hid⟩ := hiff.mpr (by decide)
  exact ⟨s, hs, id₁, s₁, hwrite₁, id₂, s₂, hwrite₂, hfirst, hsecond,
    fun heq => absurd (hid heq) (by decide)⟩

/-- `a`, NUL, `b` is stored as `a`, and so is `a`, NUL, `c`. -/
theorem writeBlocks_nul :
    ∃ stored, writeBlocks (.granting sampleSha1) freshMount [97, 0, 98] = .ok stored ∧
      stored.2.file (.block stored.1) ≠ some [97, 0, 98] ∧
      ∃ again, writeBlocks (.granting sampleSha1) stored.2 [97, 0, 99] = .ok again ∧
        again.1 = stored.1 := by
  decide +kernel

end Ece318.Bbfs
