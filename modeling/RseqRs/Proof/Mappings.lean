import Mathlib.Tactic.Ring
import RseqRs.Lib.Ledger
import RseqRs.Lib.Run
import RseqRs.Model.Mappings
import RseqRs.Proof.Region

/-!
# The life of a region

What `Words::new` returns owns what `mmap` has mapped (`drop_of_new`): nothing is mapped without
an owner, also when it returns `None`. So the mappings of two `Words` are apart, for the kernel
maps over nothing, and the one `munmap` of a mapping is its owner's.
-/

namespace RseqRs

namespace Region

variable {w : ℕ} {Id : Type} {s s' s₀ : Space w Id} {h : List (Event w Id)} {e : Event w Id}
  {id id' : Id} {ws : Region.Words w} {m : Mapping w}

/-! ### What `Words::new` owns -/

/-- The kernel's answers are those that `Region::map` relies on. -/
theorem Fresh.ok {mapped : Set ℕ} {mmap : NonZeroUsize w → BitVec w} (h : Fresh mapped mmap) :
    MmapOk mmap := fun len => (h len).imp_right fun hb => ⟨hb.1.2.1, hb.1.2.2⟩

/-- **A `Words` owns what was mapped for it**, and what was mapped has a `Words`. -/
theorem drop_of_new {mapped : Set ℕ} {mmap : NonZeroUsize w → BitVec w} (h : Fresh mapped mmap)
    (cpus : U32) :
    ((Words.new mmap cpus).bind fun ws => ws.region.drop) = Words.mapping mmap cpus := by
  unfold Words.new Words.mapping
  by_cases h0 : cpus = 0
  · rw [if_pos h0, if_pos h0]
    rfl
  · rw [if_neg h0, if_neg h0]
    cases hlen : mapLen w cpus with
    | none =>
      have hnone : map mmap cpus = none := by rw [map, hlen]; rfl
      rw [hnone]
      rfl
    | some len =>
      by_cases hfail : mmap len = mapFailed w
      · have hnone : map mmap cpus = none := by
          rw [map, hlen]
          exact if_pos hfail
        rw [hnone]
        exact (if_pos hfail).symm
      · -- the mapping is not at `0`, so it is kept
        obtain ⟨⟨hne, _⟩, _⟩ := (h len).resolve_left hfail
        have hnew : NonNull.new (mmap len) = some ⟨mmap len, hne⟩ :=
          NonNull.new_eq_some.mpr rfl
        have hsome : map mmap cpus = some (.mapped ⟨mmap len, hne⟩ len) := by
          rw [map, hlen]
          show (if mmap len = mapFailed w then none else (NonNull.new (mmap len)).bind _) = _
          rw [if_neg hfail, hnew]
          rfl
        rw [hsome]
        exact (if_neg hfail).symm

/-- A new mapping does not overlap what is mapped. -/
theorem disjoint_mapping {mapped : Set ℕ} {mmap : NonZeroUsize w → BitVec w}
    (h : Fresh mapped mmap) (cpus : U32) : Disjoint (span (Words.mapping mmap cpus)) mapped := by
  unfold Words.mapping
  split
  · exact Set.empty_disjoint _
  · split
    · next len _ =>
      split
      · exact Set.empty_disjoint _
      · next hfail => exact ((h len).resolve_left hfail).2
    · exact Set.empty_disjoint _

/-! ### The invariant -/

/-- Where the words of a region lie: in its mapping, or in what is borrowed for `'static`. -/
def place (pinned : Set ℕ) : Region w → Set ℕ
  | .mapped base len => span (some ⟨base.val, len.val⟩)
  | .raw _ => pinned

/-- The words of a `Words` fit where they lie. -/
def Placed (pinned : Set ℕ) (ws : Region.Words w) : Prop :=
  ∃ base bytes, Fits ws base bytes ∧
    Set.Ico base.val.toNat (base.val.toNat + bytes) ⊆ place pinned ws.region

/-- **The invariant.** -/
structure Inv (h : List (Event w Id)) (s : Space w Id) : Prop where
  kept : s.kept ⊆ s.mapped
  placed : ∀ id ws, s.live id = some ws → Placed s.pinned ws
  apart : ∀ id id', id ≠ id' → Disjoint (span (s.owns id)) (span (s.owns id'))
  books : ∀ m, Balances (fun id => if s.owns id = some m then (1 : ℤ) else 0)
    (h.countP (Event.maps m) - h.countP (Event.unmaps m))

theorem place_mono {pinned pinned' : Set ℕ} (h : pinned ⊆ pinned') (r : Region w) :
    place pinned r ⊆ place pinned' r := by
  cases r with
  | mapped base len => exact subset_rfl
  | raw base => exact h

theorem Placed.mono {pinned pinned' : Set ℕ} (hp : Placed pinned ws) (h : pinned ⊆ pinned') :
    Placed pinned' ws := by
  obtain ⟨base, bytes, hfits, hsub⟩ := hp
  exact ⟨base, bytes, hfits, hsub.trans (place_mono h _)⟩

/-- A word lies where its region lies. -/
theorem Placed.word (hw : PtrWidth w) {pinned : Set ℕ} (hp : Placed pinned ws) {K : Index}
    {key : K.Key} {p : BitVec w × K.Key} (hget : ws.get K key = some p) :
    wordBytes p.1 ⊆ place pinned ws.region := by
  obtain ⟨base, bytes, hfits, hsub⟩ := hp
  obtain ⟨hlo, hhi⟩ := (hfits.inBounds hw).inside K key p hget
  exact (Set.Ico_subset_Ico hlo hhi).trans hsub

theorem Placed.of_new (hw : PtrWidth w) {pinned mapped : Set ℕ}
    {mmap : NonZeroUsize w → BitVec w} {cpus : U32} (hf : Fresh mapped mmap)
    (h : Words.new mmap cpus = some ws) : Placed pinned ws := by
  cases hr : ws.region with
  | mapped base len =>
    refine ⟨base, len.val.toNat, fits_of_built hw (.new hf.ok h hr), ?_⟩
    rw [hr]
    exact subset_rfl
  | raw base =>
    -- `Region::map` makes no raw region
    have hmap := Words.region_of_new h
    rw [hr, map] at hmap
    obtain ⟨len, _, hmap⟩ := Option.bind_eq_some_iff.mp hmap
    split at hmap
    · cases hmap
    · obtain ⟨_, _, hmap⟩ := Option.bind_eq_some_iff.mp hmap
      cases hmap

theorem Placed.of_fromStatic (hw : PtrWidth w) {pinned : Set ℕ} {words : StaticSlice w}
    (h : Words.fromStatic words = some ws) (hp : words.bytes ⊆ pinned) : Placed pinned ws := by
  refine ⟨words.ptr, _, fits_of_built hw (.fromStatic h), ?_⟩
  obtain ⟨_, _, rfl⟩ := Words.fromStatic_eq_some.mp h
  exact hp

/-! ### Steps -/

theorem subset_kept (s : Space w Id) (id : Id) : span (s.owns id) ⊆ s.kept :=
  Set.subset_union_of_subset_right (Set.subset_iUnion (fun id => span (s.owns id)) id) _

theorem kept_subset {A : Set ℕ} (hpin : s.pinned ⊆ A) (hown : ∀ id, span (s.owns id) ⊆ A) :
    s.kept ⊆ A := Set.union_subset hpin (Set.iUnion_subset hown)

/-- A region owns a mapping with bytes. -/
theorem span_nonempty (h : s.owns id = some m) : (span (some m)).Nonempty := by
  obtain ⟨ws, _, hd⟩ := Option.bind_eq_some_iff.mp h
  cases hr : ws.region with
  | mapped base len =>
    rw [hr] at hd
    cases hd
    have hpos : 0 < len.val.toNat := Nat.pos_of_ne_zero fun h0 =>
      len.property (BitVec.eq_of_toNat_eq h0)
    exact Set.nonempty_Ico.mpr (Nat.lt_add_of_pos_right hpos)
  | raw base => rw [hr] at hd; cases hd

theorem owns_of_none (h : s.live id = none) : s.owns id = none := by
  rw [Space.owns, h]
  rfl

/-- A mapping more. -/
theorem count_new {o : Option (Mapping w)} :
    ((Event.new id o :: h).countP (Event.maps m) : ℤ) =
        h.countP (Event.maps m) + (if o = some m then 1 else 0) ∧
      (Event.new id o :: h).countP (Event.unmaps m) = h.countP (Event.unmaps m) := by
  have hmaps : (Event.new id o).maps m = decide (o = some m) := rfl
  refine ⟨?_, List.countP_cons_of_neg nofun⟩
  rw [List.countP_cons, hmaps]
  by_cases ho : o = some m <;> simp [ho]

/-- A mapping less. -/
theorem count_drop {o : Option (Mapping w)} :
    ((Event.drop id o :: h).countP (Event.unmaps m) : ℤ) =
        h.countP (Event.unmaps m) + (if o = some m then 1 else 0) ∧
      (Event.drop id o :: h).countP (Event.maps m) = h.countP (Event.maps m) := by
  have hunmaps : (Event.drop id o).unmaps m = decide (o = some m) := rfl
  refine ⟨?_, List.countP_cons_of_neg nofun⟩
  rw [List.countP_cons, hunmaps]
  by_cases ho : o = some m <;> simp [ho]

theorem Space.Initial.inv (hs : s.Initial) : Inv [] s where
  kept := kept_subset hs.pinned fun id => by
    rw [owns_of_none (hs.live id)]
    exact Set.empty_subset _
  placed id ws hws := by
    rw [hs.live id] at hws
    cases hws
  apart id id' _ := by
    rw [owns_of_none (hs.live id)]
    exact Set.empty_disjoint _
  books m := Balances.zero fun id => by
    rw [owns_of_none (hs.live id)]
    rfl

variable [DecidableEq Id]

theorem owns_update (s : Space w Id) (id : Id) (o : Option (Region.Words w)) (A B : Set ℕ) :
    Space.owns ⟨A, B, Function.update s.live id o⟩ =
      Function.update s.owns id (o.bind fun ws => ws.region.drop) :=
  funext fun id' => Function.apply_update
    (fun _ (o : Option (Region.Words w)) => o.bind fun ws => ws.region.drop) _ _ _ id'

/-- **One `Words` is replaced**: what it owns then, `m'`, lies apart from what the others do,
and the books of every mapping say so. -/
theorem Inv.update {A B : Set ℕ} {o : Option (Region.Words w)} {m' : Option (Mapping w)}
    (hi : Inv h s) (hm : (o.bind fun ws => ws.region.drop) = m') (hAB : B ⊆ A)
    (hpin : s.pinned ⊆ B) (hnew : span m' ⊆ A)
    (hold : ∀ id', id' ≠ id → span (s.owns id') ⊆ A) (hplaced : ∀ ws, o = some ws → Placed B ws)
    (hapart : ∀ id', id' ≠ id → Disjoint (span m') (span (s.owns id')))
    (hbooks : ∀ m, ((e :: h).countP (Event.maps m) - (e :: h).countP (Event.unmaps m) : ℤ) +
        (if s.owns id = some m then 1 else 0) =
      (h.countP (Event.maps m) - h.countP (Event.unmaps m)) + if m' = some m then 1 else 0) :
    Inv (e :: h) ⟨A, B, Function.update s.live id o⟩ := by
  have howns := owns_update s id o A B
  rw [hm] at howns
  refine ⟨kept_subset hAB fun id' => ?_, fun id' ws hws => ?_, fun id₁ id₂ hne => ?_, fun m => ?_⟩
  · rw [howns]
    by_cases hid : id' = id
    · rw [hid, Function.update_self]
      exact hnew
    · rw [Function.update_of_ne hid]
      exact hold id' hid
  · change Function.update s.live id o id' = some ws at hws
    by_cases hid : id' = id
    · rw [hid, Function.update_self] at hws
      exact hplaced ws hws
    · rw [Function.update_of_ne hid] at hws
      exact (hi.placed id' ws hws).mono hpin
  · rw [howns]
    by_cases h₁ : id₁ = id
    · have h₂ : id₂ ≠ id := fun h₂ => hne (h₁.trans h₂.symm)
      rw [h₁, Function.update_self, Function.update_of_ne h₂]
      exact hapart id₂ h₂
    · rw [Function.update_of_ne h₁]
      by_cases h₂ : id₂ = id
      · rw [h₂, Function.update_self]
        exact (hapart id₁ h₁).symm
      · rw [Function.update_of_ne h₂]
        exact hi.apart id₁ id₂ hne
  · -- only the position of `id` changes
    rw [howns]
    refine (hi.books m).change id (fun id' hid => ?_) ?_
    · rw [Function.update_of_ne hid]
    · rw [Function.update_self]
      exact hbooks m

theorem Inv.step (hw : PtrWidth w) (hi : Inv h s) (hs : Step s e s') : Inv (e :: h) s' := by
  have hpinned : s.pinned ⊆ s.mapped := Set.subset_union_left.trans hi.kept
  have howned (id : Id) : span (s.owns id) ⊆ s.mapped := (subset_kept s id).trans hi.kept
  cases hs with
  | new id mmap cpus hnone hf =>
    -- what is new lies apart from all that was mapped
    refine hi.update (drop_of_new hf cpus) (hpinned.trans Set.subset_union_left) subset_rfl
      Set.subset_union_right (fun id' _ => (howned id').trans Set.subset_union_left)
      (fun ws hws => .of_new hw hf hws)
      (fun id' _ => (disjoint_mapping hf cpus).mono_right (howned id')) fun m => ?_
    rw [owns_of_none hnone, if_neg nofun, count_new.1, count_new.2]
    ring
  | fromStatic id words hnone hbytes =>
    -- a region over a static slice owns nothing
    have hm : ((Words.fromStatic words).bind fun ws => ws.region.drop) = none := by
      cases hws : Words.fromStatic words with
      | none => rfl
      | some ws =>
        obtain ⟨_, _, rfl⟩ := Words.fromStatic_eq_some.mp hws
        rfl
    refine hi.update hm (Set.union_subset hpinned hbytes) Set.subset_union_left
      (Set.empty_subset _) (fun id' _ => howned id')
      (fun ws hws => .of_fromStatic hw hws Set.subset_union_right)
      (fun id' _ => Set.empty_disjoint _) fun m => ?_
    rw [owns_of_none hnone]
    rfl
  | drop id ws hlive hdis =>
    have hown : s.owns id = ws.region.drop := by
      rw [Space.owns, hlive]
      rfl
    -- what the others own lies apart from what is unmapped
    have hother (id' : Id) (hid : id' ≠ id) : span (s.owns id') ⊆ s.mapped \ span ws.region.drop :=
      Set.subset_sdiff.mpr ⟨howned id', hown ▸ hi.apart id' id hid⟩
    have hm : ((none : Option (Region.Words w)).bind fun ws => ws.region.drop) = none := rfl
    refine hi.update hm (Set.subset_sdiff.mpr ⟨hpinned, hdis.symm⟩) subset_rfl
      (Set.empty_subset _) hother nofun (fun id' _ => Set.empty_disjoint _) fun m => ?_
    have hnone : ¬ (none : Option (Mapping w)) = some m := nofun
    rw [hown, if_neg hnone, count_drop.1, count_drop.2]
    ring
  | other mapped pinned hkept hpin hsub =>
    refine ⟨kept_subset hsub fun id => (subset_kept s id).trans hkept, fun id ws hws => ?_,
      hi.apart, hi.books⟩
    exact (hi.placed id ws hws).mono hpin

theorem inv_run (hw : PtrWidth w) (hi : s₀.Initial) (hr : LTS.Run Step s₀ h s) : Inv h s :=
  hr.invariant (I := fun h s => Inv h s) hi.inv fun _ _ _ _ _ hinv hs => hinv.step hw hs

/-! ### What holds in a run -/

section Sound

omit [DecidableEq Id]

/-- A mapping has one owner. -/
theorem Inv.unique (hi : Inv h s) (h₁ : s.owns id = some m) (h₂ : s.owns id' = some m) :
    id' = id := by
  by_contra hne
  -- it would be apart from itself
  have hdis := hi.apart id' id hne
  rw [h₁, h₂, disjoint_self] at hdis
  exact (span_nonempty h₁).ne_empty hdis

/-- A mapping is unmapped as often as it was mapped, but for the one that is alive. -/
theorem Inv.counts (hi : Inv h s) (id : Id) (hothers : ∀ id', id' ≠ id → s.owns id' ≠ some m) :
    (h.countP (Event.maps m) : ℤ) =
      h.countP (Event.unmaps m) + if s.owns id = some m then 1 else 0 := by
  have htotal := (hi.books m).total_eq_sum (S := {id}) fun id' hid' =>
    if_neg (hothers id' (Finset.notMem_singleton.mp hid'))
  rw [Finset.sum_singleton] at htotal
  exact sub_eq_iff_eq_add'.mp htotal

theorem place_of_owns (hlive : s.live id = some ws) (ho : (s.owns id).isSome) (pinned : Set ℕ) :
    place pinned ws.region = span (s.owns id) := by
  have howns : s.owns id = ws.region.drop := by
    rw [Space.owns, hlive]
    rfl
  rw [howns] at ho ⊢
  cases hr : ws.region with
  | mapped base len => rfl
  | raw base => rw [hr] at ho; cases ho

theorem Inv.sound (hw : PtrWidth w) (hi : Inv h s) : Sound h s where
  mapped id ws K key p hlive hget := by
    refine ((hi.placed id ws hlive).word hw hget).trans (Set.Subset.trans ?_ hi.kept)
    cases hr : ws.region with
    | mapped base len =>
      have howns : s.owns id = some ⟨base.val, len.val⟩ := by
        rw [Space.owns, hlive]
        exact congrArg drop hr
      have hsub := subset_kept s id
      rw [howns] at hsub
      exact hsub
    | raw base => exact Set.subset_union_left
  apart id id' ws ws' K K' key key' p p' hne hlive hlive' ho ho' hget hget' := by
    have h₁ := (hi.placed id ws hlive).word hw hget
    have h₂ := (hi.placed id' ws' hlive').word hw hget'
    rw [place_of_owns hlive ho] at h₁
    rw [place_of_owns hlive' ho'] at h₂
    exact (hi.apart id id' hne).mono h₁ h₂
  alive id m hm := by
    have hcount := hi.counts id fun id' hne hm' => hne (hi.unique hm hm')
    rw [if_pos hm] at hcount
    exact_mod_cast hcount
  gone m hm := by
    have htotal := (hi.books m).total_eq_zero fun id => if_neg (hm id)
    exact_mod_cast sub_eq_zero.mp htotal

end Sound

/-- **Regions are sound**: in every run, on either pointer width. -/
theorem regions_sound (hw : PtrWidth w) (hi : s₀.Initial) (hr : LTS.Run Step s₀ h s) :
    Sound h s := (inv_run hw hi hr).sound hw

/-- A kernel that maps one page, at `0x1000`. -/
def onePage (len : NonZeroUsize 64) : BitVec 64 := if len.val = 4096 then 0x1000 else mapFailed 64

theorem onePage_fresh : Fresh ∅ onePage := by
  intro len
  by_cases h : len.val = 4096
  · have hpage : onePage len = 0x1000 := if_pos h
    rw [hpage, h]
    exact Or.inr ⟨by decide, Set.disjoint_empty _⟩
  · exact Or.inl (if_neg h)

/-- A process that has made its first `Words`, on that page. -/
def withPage : Space 64 Unit where
  mapped := ∅ ∪ span (Words.mapping onePage 1)
  pinned := ∅
  live := Function.update (fun _ => none) () (Words.new onePage 1)

/-- The page. -/
def pageMapping : Mapping 64 := ⟨0x1000, 4096⟩

/-- The `Words` has been dropped. -/
def withoutPage : Space 64 Unit where
  mapped := withPage.mapped \ span (some pageMapping)
  pinned := ∅
  live := Function.update withPage.live () none

/-- The page has been unmapped, as it was mapped. -/
theorem regions_sound_withoutPage :
    Sound [.drop () (some pageMapping), .new () (some pageMapping)] withoutPage := by
  have hnew : Step ⟨∅, ∅, fun _ => none⟩ (.new () (some pageMapping)) withPage :=
    .new () onePage 1 rfl onePage_fresh
  have hdrop : Step withPage (.drop () (some pageMapping)) withoutPage :=
    .drop () ⟨.mapped ⟨0x1000, by decide⟩ ⟨4096, by decide⟩, 1⟩ rfl (Set.disjoint_empty _)
  exact regions_sound (Or.inr rfl) ⟨fun _ => rfl, subset_rfl⟩ (.cons (.cons .nil hnew) hdrop)

end Region

end RseqRs
