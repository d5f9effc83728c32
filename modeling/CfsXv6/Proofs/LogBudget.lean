import Mathlib.Data.Finset.Card
import CfsXv6.Spec.Log
import CfsXv6.Spec.Mkfs

/-! Every transaction `filewrite` opens fits the log (`filewrite_log_budget`).
A chunk of `filewriteMax` bytes spans at most four blocks; each pass of the
loop of `writei` hands to `log_write` the block it copies into, the free-map
block for each `balloc`, and the indirect block; `iupdate` adds the inode's
block. With the free map in one block, as on the file system `mkfs` builds,
that is at most eight blocks. The indirect block can be allocated twice only
when `balloc` returns block 0, which is then marked, so block 0 is counted
apart. -/

namespace CfsXv6

section Budget

variable {sb : Superblock} {d d' : Disk} {ip ip' : Dinode} {bn b : ℕ} {a : UInt32}

/-! ## `balloc` -/

theorem balloc_lt (h : balloc d sb = some (d', b)) : b < sb.size.toNat := by
  unfold balloc at h
  split at h
  · next b' hf =>
    cases h
    exact List.mem_range.1 (List.mem_of_find?_eq_some hf)
  · cases h

theorem toNat_toUInt32_of_balloc (h : balloc d sb = some (d', b)) : b.toUInt32.toNat = b := by
  have hb := balloc_lt h
  have hs := sb.size.toNat_lt
  simp only [Nat.toUInt32, UInt32.toNat_ofNat']
  exact Nat.mod_eq_of_lt (by omega)

theorem BBLOCK_of_lt (hsb : sb.size.toNat ≤ BPB) (hb : b < sb.size.toNat) : BBLOCK sb b = sb.bmapstart.toNat := by
  rw [BBLOCK, Nat.div_eq_of_lt (by omega), Nat.zero_add]

theorem mem_ballocLog (hsb : sb.size.toNat ≤ BPB) {x : ℕ} (hx : x ∈ ballocLog sb d) :
    x = sb.bmapstart.toNat ∨ ∃ d', balloc d sb = some (d', x) := by
  unfold ballocLog at hx
  split at hx
  · next d'' b' hb =>
    rcases List.mem_pair.1 hx with rfl | rfl
    · exact .inl (BBLOCK_of_lt hsb (balloc_lt hb))
    · exact .inr ⟨d'', hb⟩
  · cases hx

/-! ## `bmap` -/

/-- The first step of `bmap` past the direct blocks: the indirect block is
allocated if the inode has none. -/
def indStep (sb : Superblock) (d : Disk) (ip : Dinode) : Option (Disk × Dinode) :=
  if ip.indirect = 0 then
    (balloc d sb).map fun (d', b) => (d', { ip with addrs := Function.update ip.addrs ⟨NDIRECT, Nat.lt_succ_self NDIRECT⟩ b.toUInt32 })
  else some (d, ip)

/-- The rest of `bmap` past the direct blocks: the entry of the indirect
block, allocated if it is 0. -/
def indEntry (sb : Superblock) (bn : ℕ) : Disk × Dinode → Option (Disk × Dinode × UInt32)
  | (d1, ip1) =>
    let buf := Bytes.read d1 (ip1.indirect.toNat * BSIZE) BSIZE
    let addr := word buf (4 * (bn - NDIRECT))
    if addr = 0 then do
      let (d2, b) ← balloc d1 sb
      let buf' := buf.take (4 * (bn - NDIRECT)) ++ Bytes.le 4 b ++ buf.drop (4 * (bn - NDIRECT) + 4)
      pure (Bytes.write d2 (ip1.indirect.toNat * BSIZE) buf', ip1, b.toUInt32)
    else pure (d1, ip1, addr)

theorem bmap_indirect (hn : ¬bn < NDIRECT) (hi : bn - NDIRECT < NINDIRECT) :
    bmap d sb ip bn = indStep sb d ip >>= indEntry sb bn := by
  rw [bmap, dif_neg hn, if_pos hi, indStep]
  split <;> rfl

theorem bmapLog_indirect (hn : ¬bn < NDIRECT) (hi : bn - NDIRECT < NINDIRECT) :
    bmapLog sb d ip bn =
      (if ip.indirect = 0 then ballocLog sb d else []) ++
        match indStep sb d ip with
        | some (d1, ip1) =>
          if word (Bytes.read d1 (ip1.indirect.toNat * BSIZE) BSIZE) (4 * (bn - NDIRECT)) = 0 then
            if (balloc d1 sb).isSome then ballocLog sb d1 ++ [ip1.indirect.toNat] else []
          else []
        | none => [] := by
  rw [bmapLog, dif_neg hn, if_pos hi]
  rfl

/-- The indirect block of the inode once `bmap(ip, bn)` has looked at it. -/
def indAfter (sb : Superblock) (d : Disk) (ip : Dinode) (bn : ℕ) : ℕ :=
  if bn < NDIRECT then ip.indirect.toNat else ((indStep sb d ip).map fun r => r.2.indirect.toNat).getD 0

theorem indStep_of_ne (h : ip.indirect ≠ 0) : indStep sb d ip = some (d, ip) := if_neg h

theorem indStep_of_zero (hz : ip.indirect = 0) (hb : balloc d sb = some (d', b)) :
    ∃ ip1, indStep sb d ip = some (d', ip1) ∧ ip1.indirect.toNat = b := by
  refine ⟨_, by rw [indStep, if_pos hz, hb]; rfl, ?_⟩
  simp only [Dinode.indirect, Function.update_self]
  exact toNat_toUInt32_of_balloc hb

theorem indAfter_of_ne (h : ip.indirect ≠ 0) : indAfter sb d ip bn = ip.indirect.toNat := by
  unfold indAfter
  split_ifs
  · rfl
  · rw [indStep_of_ne h]
    rfl

theorem indAfter_of_indStep {d1 : Disk} {ip1 : Dinode} (hn : ¬bn < NDIRECT) (h : indStep sb d ip = some (d1, ip1)) :
    indAfter sb d ip bn = ip1.indirect.toNat := by
  rw [indAfter, if_neg hn, h]
  rfl

theorem indEntry_inode {d1 : Disk} {ip1 : Dinode} (h : indEntry sb bn (d1, ip1) = some (d', ip', a)) : ip' = ip1 := by
  unfold indEntry at h
  dsimp only at h
  split_ifs at h
  · cases hb : balloc d1 sb with
    | none =>
      rw [hb] at h
      cases h
    | some r =>
      rw [hb] at h
      cases h
      rfl
  · cases h
    rfl

theorem indEntry_of_balloc {d1 d2 : Disk} {ip1 : Dinode}
    (hw : word (Bytes.read d1 (ip1.indirect.toNat * BSIZE) BSIZE) (4 * (bn - NDIRECT)) = 0)
    (hb : balloc d1 sb = some (d2, b)) : ∃ d', indEntry sb bn (d1, ip1) = some (d', ip1, b.toUInt32) := by
  unfold indEntry
  dsimp only
  rw [if_pos hw, hb]
  exact ⟨_, rfl⟩

theorem bmap_direct_balloc (hd : bn < NDIRECT) (hz : ip.addrs ⟨bn, lt_NDIRECT_succ hd⟩ = 0)
    (hb : balloc d sb = some (d', b)) : ∃ ip', bmap d sb ip bn = some (d', ip', b.toUInt32) := by
  rw [bmap, dif_pos hd]
  dsimp only
  rw [if_pos hz, hb]
  exact ⟨_, rfl⟩

theorem bmap_indAfter (h : bmap d sb ip bn = some (d', ip', a)) : ip'.indirect.toNat = indAfter sb d ip bn := by
  by_cases hd : bn < NDIRECT
  · rw [indAfter, if_pos hd]
    rw [bmap, dif_pos hd] at h
    dsimp only at h
    split_ifs at h
    · obtain ⟨⟨d'', b'⟩, -, he⟩ := Option.map_eq_some_iff.1 h
      cases he
      have hne : (⟨NDIRECT, Nat.lt_succ_self NDIRECT⟩ : Fin (NDIRECT + 1)) ≠ ⟨bn, lt_NDIRECT_succ hd⟩ :=
        fun he => by simp [Fin.ext_iff] at he; omega
      simp only [Dinode.indirect, Function.update_of_ne hne]
    · cases h
      rfl
  by_cases hi : bn - NDIRECT < NINDIRECT
  · rw [bmap_indirect hd hi] at h
    obtain ⟨⟨d1, ip1⟩, h1, h2⟩ := Option.bind_eq_some_iff.1 h
    rw [indAfter_of_indStep hd h1, indEntry_inode h2]
  · rw [bmap, dif_neg hd, if_neg hi] at h
    cases h

theorem mem_bmapLog (hsb : sb.size.toNat ≤ BPB) {x : ℕ} (hx : x ∈ bmapLog sb d ip bn) :
    x = sb.bmapstart.toNat ∨ x = indAfter sb d ip bn ∨ ∃ r, bmap d sb ip bn = some r ∧ x = r.2.2.toNat := by
  by_cases hd : bn < NDIRECT
  · rw [bmapLog, dif_pos hd] at hx
    split_ifs at hx with hz
    · rcases mem_ballocLog hsb hx with h | ⟨d'', hb⟩
      · exact .inl h
      · obtain ⟨ip', he⟩ := bmap_direct_balloc hd hz hb
        exact .inr (.inr ⟨_, he, (toNat_toUInt32_of_balloc hb).symm⟩)
    · cases hx
  by_cases hi : bn - NDIRECT < NINDIRECT
  · rw [bmapLog_indirect hd hi] at hx
    rcases List.mem_append.1 hx with hx | hx
    -- the indirect block allocated, with its free-map block
    · split_ifs at hx with hz
      · rcases mem_ballocLog hsb hx with h | ⟨d'', hb⟩
        · exact .inl h
        · obtain ⟨ip1, h1, hind⟩ := indStep_of_zero hz hb
          exact .inr (.inl (by rw [indAfter_of_indStep hd h1, hind]))
      · cases hx
    -- the entry allocated, with its free-map block, then the indirect block
    · cases h1 : indStep sb d ip with
      | none =>
        rw [h1] at hx
        cases hx
      | some r =>
        obtain ⟨d1, ip1⟩ := r
        rw [h1] at hx
        dsimp only at hx
        split_ifs at hx with hw hs
        · rcases List.mem_append.1 hx with hx | hx
          · rcases mem_ballocLog hsb hx with h | ⟨d2, hb⟩
            · exact .inl h
            · obtain ⟨d', he⟩ := indEntry_of_balloc hw hb
              refine .inr (.inr ⟨(d', ip1, x.toUInt32), ?_, (toNat_toUInt32_of_balloc hb).symm⟩)
              rw [bmap_indirect hd hi, h1]
              exact he
          · rw [List.mem_singleton.1 hx]
            exact .inr (.inl (indAfter_of_indStep hd h1).symm)
        · cases hx
        · cases hx
  · rw [bmapLog, dif_neg hd, if_neg hi] at hx
    cases hx

/-! ## The loop of `writei` -/

/-- The log `l` names no block but the free map's, block 0, the indirect
block `ind` and the blocks of `A`. -/
def LoggedIn (sb : Superblock) (ind : ℕ) (A l : List ℕ) : Prop :=
  ∀ x ∈ l, x = sb.bmapstart.toNat ∨ x = 0 ∨ x = ind ∨ x ∈ A

theorem LoggedIn.card_le {ind : ℕ} {A l : List ℕ} (h : LoggedIn sb ind A l) : l.toFinset.card ≤ A.length + 3 := by
  have hsub : l.toFinset ⊆ (sb.bmapstart.toNat :: 0 :: ind :: A).toFinset := by
    intro x hx
    rw [List.mem_toFinset] at hx ⊢
    rcases h x hx with rfl | rfl | rfl | hA <;> simp [*]
  calc l.toFinset.card ≤ (sb.bmapstart.toNat :: 0 :: ind :: A).toFinset.card := Finset.card_le_card hsub
    _ ≤ (sb.bmapstart.toNat :: 0 :: ind :: A).length := List.toFinset_card_le _
    _ = A.length + 3 := by simp

theorem pass_blocks {off L k : ℕ} (hL : 0 < L) (hk : (L ≤ BSIZE - off % BSIZE → k = 0))
    (hlen : k ≤ ((off + min L (BSIZE - off % BSIZE)) % BSIZE + (L - min L (BSIZE - off % BSIZE)) + BSIZE - 1) / BSIZE) :
    k + 1 ≤ (off % BSIZE + L + BSIZE - 1) / BSIZE := by
  unfold BSIZE at *
  by_cases hle : L ≤ 512 - off % 512
  · rw [hk hle]
    omega
  · omega

theorem writeiLoopLog_within (hsb : sb.size.toNat ≤ BPB) (fuel : ℕ) :
    ∀ (d : Disk) (ip : Dinode) (off : ℕ) (src : List UInt8), ∃ ind A,
      (src = [] → A = []) ∧ A.length ≤ (off % BSIZE + src.length + BSIZE - 1) / BSIZE ∧
      (ip.indirect ≠ 0 → ind = ip.indirect.toNat) ∧ LoggedIn sb ind A (writeiLoopLog sb fuel d ip off src) := by
  induction fuel with
  | zero =>
    intro d ip off src
    exact ⟨ip.indirect.toNat, [], fun _ => rfl, Nat.zero_le _, fun _ => rfl, fun x hx => by cases hx⟩
  | succ fuel ih =>
    intro d ip off src
    by_cases hs : src = []
    · subst hs
      refine ⟨ip.indirect.toNat, [], fun _ => rfl, Nat.zero_le _, fun _ => rfl, fun x hx => ?_⟩
      rw [writeiLoopLog, if_pos rfl] at hx
      cases hx
    cases hb : bmap d sb ip (off / BSIZE) with
    | none =>
      -- the pass panics in `bmap`, after what `bmap` logged
      refine ⟨indAfter sb d ip (off / BSIZE), [], fun h => absurd h hs, Nat.zero_le _, indAfter_of_ne, ?_⟩
      intro x hx
      rw [writeiLoopLog, if_neg hs, hb, List.append_nil] at hx
      rcases mem_bmapLog hsb hx with h | h | ⟨r, hr, -⟩
      · exact .inl h
      · exact .inr (.inr (.inl h))
      · rw [hb] at hr
        cases hr
    | some r =>
      obtain ⟨d1, ip1, a⟩ := r
      obtain ⟨ind, A, hA0, hlen, hind, hw⟩ := ih (Bytes.write d1 (a.toNat * BSIZE + off % BSIZE)
        (src.take (min src.length (BSIZE - off % BSIZE)))) ip1 (off + min src.length (BSIZE - off % BSIZE))
        (src.drop (min src.length (BSIZE - off % BSIZE)))
      have hi1 := bmap_indAfter hb
      refine ⟨ind, a.toNat :: A, fun h => absurd h hs, ?_, fun h => ?_, ?_⟩
      · rw [List.length_drop] at hlen
        exact pass_blocks (List.length_pos_of_ne_nil hs)
          (fun hle => by rw [hA0 (List.drop_eq_nil_of_le (by omega))]; rfl) hlen
      -- a nonzero indirect block stays
      · rw [indAfter_of_ne h] at hi1
        have h1 : ip1.indirect ≠ 0 := fun h0 => h (UInt32.toNat_inj.1 (by rw [← hi1, h0]))
        rw [hind h1, hi1]
      · intro x hx
        rw [writeiLoopLog, if_neg hs, hb] at hx
        rcases List.mem_append.1 hx with hx | hx
        · rcases mem_bmapLog hsb hx with h | h | ⟨r, hr, rfl⟩
          · exact .inl h
          -- the indirect block after this pass is 0 or the one the rest of the run keeps
          · rw [← hi1] at h
            by_cases h0 : ip1.indirect = 0
            · rw [h, h0]
              exact .inr (.inl rfl)
            · exact .inr (.inr (.inl (h.trans (hind h0).symm)))
          · rw [hb] at hr
            cases hr
            exact .inr (.inr (.inr List.mem_cons_self))
        · rcases List.mem_cons.1 hx with rfl | hx
          · exact .inr (.inr (.inr List.mem_cons_self))
          · rcases hw x hx with h | h | h | h
            · exact .inl h
            · exact .inr (.inl h)
            · exact .inr (.inr (.inl h))
            · exact .inr (.inr (.inr (List.mem_cons_of_mem _ h)))

/-! ## `writei` and `filewrite` -/

theorem writeiLog_card (hsb : sb.size.toNat ≤ BPB) {ip : Inode} {src : List UInt8} {off : UInt32}
    (hsrc : src.length ≤ filewriteMax) : (writeiLog sb d ip src off).toFinset.card ≤ MAXOPBLOCKS := by
  unfold writeiLog
  dsimp only
  split_ifs
  · exact Nat.zero_le _
  · exact Nat.zero_le _
  · exact Nat.zero_le _
  obtain ⟨ind, A, -, hlen, -, hw⟩ := writeiLoopLog_within hsb src.length.toUInt32.toNat d ip.din off.toNat
    (src.take src.length.toUInt32.toNat)
  have hA : A.length ≤ 4 := by
    have ht := List.length_take_le' src.length.toUInt32.toNat src
    have hm := Nat.mod_lt off.toNat (show 0 < BSIZE by decide)
    unfold filewriteMax MAXOPBLOCKS at hsrc
    unfold BSIZE at *
    omega
  -- the inode's block is the only block past the loop
  have hin : LoggedIn sb ind (IBLOCK sb ip.inum :: A) (writeiLoopLog sb src.length.toUInt32.toNat d ip.din off.toNat
      (src.take src.length.toUInt32.toNat) ++
      match writeiLoop sb src.length.toUInt32.toNat d ip.din off.toNat (src.take src.length.toUInt32.toNat) with
      | some (_, din) => if src.length.toUInt32 > 0 ∧ off + src.length.toUInt32 > din.size then [IBLOCK sb ip.inum] else []
      | none => []) := by
    intro x hx
    rcases List.mem_append.1 hx with hx | hx
    · rcases hw x hx with h | h | h | h
      · exact .inl h
      · exact .inr (.inl h)
      · exact .inr (.inr (.inl h))
      · exact .inr (.inr (.inr (List.mem_cons_of_mem _ h)))
    · split at hx
      · split_ifs at hx
        · rw [List.mem_singleton.1 hx]
          exact .inr (.inr (.inr List.mem_cons_self))
        · cases hx
      · cases hx
  calc _ ≤ (IBLOCK sb ip.inum :: A).length + 3 := hin.card_le
    _ ≤ MAXOPBLOCKS := by
      rw [List.length_cons, MAXOPBLOCKS]
      omega

theorem filewriteLoop_budget (hsb : sb.size.toNat ≤ BPB) (fuel : ℕ) :
    ∀ (d : Disk) (ip : Inode) (off : UInt32) (src : List UInt8),
      ∀ tx ∈ filewriteLoop sb fuel d ip off src, tx.toFinset.card ≤ MAXOPBLOCKS := by
  induction fuel with
  | zero =>
    intro d ip off src tx htx
    cases htx
  | succ fuel ih =>
    intro d ip off src tx htx
    rw [filewriteLoop] at htx
    split_ifs at htx
    · cases htx
    rcases List.mem_cons.1 htx with rfl | htx
    · exact writeiLog_card hsb (List.length_take_le _ _)
    -- the transactions of the chunks after this one
    · split at htx
      · split_ifs at htx
        · cases htx
        · exact ih _ _ _ _ tx htx
      · cases htx

end Budget

/-- Every transaction `filewrite` opens on an inode hands at most
`MAXOPBLOCKS` distinct blocks to `log_write`, on a file system whose free map
is one block. -/
theorem filewrite_log_budget (sb : Superblock) (hsb : sb.size.toNat ≤ BPB) (d : Disk) (ip : Inode) (off : UInt32)
    (src : List UInt8) : ∀ tx ∈ filewrite sb d ip off src, tx.toFinset.card ≤ MAXOPBLOCKS :=
  filewriteLoop_budget hsb _ d ip off src

theorem filewrite_log_budget_mkfs :
    Mkfs.sb.size.toNat ≤ BPB ∧
      ∀ tx ∈ filewrite Mkfs.sb (fun _ => 0) Inode.empty 0 (List.replicate 5000 1), tx.toFinset.card ≤ MAXOPBLOCKS :=
  ⟨by decide, filewrite_log_budget Mkfs.sb (by decide) _ _ _ _⟩

end CfsXv6
