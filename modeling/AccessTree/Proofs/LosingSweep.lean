import AccessTree.Proofs.LosingWalks

/-!
Sweeps from an anchor while objects behind it are destroyed. The climb from the anchor meets the
parents that it had in the beginning, and the walk that starts again from the beginning meets the
anchor and ends there, so that the sweep goes round once.
-/

namespace AccessTree

open AccessTree.Tree

namespace Walker

open Inquiry (Yields Shrinking yields_pure yields_note)

variable {schedule : Nat → List Registry.Edit} {w : Walker (Registry × Nat) ObjectId}
  (hw : w.tree = Registry.live schedule) (hs : ∀ k, ∀ e ∈ schedule k, e.shrinks = true)
  {r : Registry} {a collection n m : ObjectId} {k : Walk (Registry × Nat) ObjectId}
  {levels steps depth index : Nat} (hJ : Endures (r.Spares a) schedule) (h : r.Sound)
include hw hs

omit hs in
include hJ h in
/-- What is found to lie in a collection was below it from the beginning. -/
lemma yields_encloses (collection : ObjectId) (hn : r.tree.UpTo a n) :
    Yields (r.Spares a) (w.encloses collection n)
      fun inside => inside = true → r.tree.Reaches collection n := by
  -- The climb stays among the objects that are spared, so each parent is the one from the
  -- beginning.
  have climbs : ∀ steps n, r.tree.UpTo a n → Yields (r.Spares a) (w.climb collection steps n)
      fun inside => inside = true → r.tree.Reaches collection n := by
    intro steps
    induction steps with
    | zero =>
      intro n hn
      unfold climb
      split
      · rename_i he
        exact yields_pure fun _ => he ▸ .refl
      · exact (yields_note _).bind fun _ _ => yields_pure fun he => absurd he Bool.false_ne_true
    | succ steps ih =>
      intro n hn
      unfold climb
      split
      · rename_i he
        exact yields_pure fun _ => he ▸ .refl
      · refine (yields_ask_of_eq hw hJ fun r' hr' => hr'.parent_eq h hn).bind fun parent? hp => ?_
        cases parent? with
        | none => exact yields_pure fun he => absurd he Bool.false_ne_true
        | some p =>
          obtain ⟨i, hi, -⟩ := h.isForest.childAt_of_parent hp.symm
          have below : r.tree.Below p n := Tree.below_of_childAt hi
          have upper : r.tree.UpTo a p := h.isForest.upTo_of_precedes hn below.precedes
          exact (ih p upper).mono fun inside hinside ht => (hinside ht).trans below.reaches
  exact climbs _ n hn

include hJ h in
/-- A climb finds part of what follows at each level, and it comes to the collection only if that is
near enough. -/
lemma finds_ascend {f : Bool → WalkM (Registry × Nat) ObjectId Unit} {l : List ObjectId}
    {ps : List Nat} {up : Nat} (hk : At (r.Spares a) none k) (hn : r.tree.UpTo a n)
    (hps : r.tree.follow collection ps = some n) (hl : w.maxDepth ≤ levels)
    (hsteps : r.objects.bound < steps)
    (hf : ∀ reached k', (reached = true → ps.length ≤ up) → At (r.Spares a) none k' →
      Finds (f reached) k' l) :
    Finds (w.ascend steps collection up n >>= f) k
      (r.tree.trailing (r.whole levels) collection ps ++ l) := by
  have ht := h.isForest
  -- The climb takes the path from its end, and each level adds the younger siblings there to what
  -- follows the path's end.
  induction ps using List.reverseRecOn generalizing n up k with
  | nil =>
    cases hps
    unfold ascend
    rw [if_pos rfl]
    exact hf true k (fun _ => Nat.zero_le _) hk
  | append_singleton ps i ih =>
    obtain ⟨p, hp, hi⟩ := Tree.follow_snoc.1 hps
    have hne : n ≠ collection := by
      rintro rfl
      simpa using ht.follow_self hps
    have upper : r.tree.UpTo a p :=
      ht.upTo_of_precedes hn (Tree.below_of_childAt hi).precedes
    have parent : r.tree.parent n = some p := (ht.of_childAt hi).2.1
    unfold ascend
    rw [if_neg hne, bind_assoc]
    refine finds_lift hk (shrinking_ask hw hs _)
      (yields_ask_of_eq hw hJ fun r' hr' => (hr'.parent_eq h hn).trans parent) ?_
    rintro _ k₁ rfl hk₁
    rw [bind_assoc]
    refine finds_lift hk₁ (shrinking_ask hw hs _)
      (yields_ask_of_eq hw hJ fun r' hr' => hr'.indexInParent_eq hn hi) ?_
    rintro _ k₂ rfl hk₂
    cases up with
    | zero =>
      -- Out of levels, the climb has found a part of what would have come.
      rw [bind_assoc]
      refine (finds_lift hk₂ (Inquiry.shrinking_note _) (yields_note _) fun _ k₃ _ hk₃ => ?_).mono
        (List.sublist_append_right _ l)
      exact hf false k₃ (fun he => absurd he Bool.false_ne_true) hk₃
    | succ up =>
      have younger : Finds (w.forward steps p (i + 1)) k₂
          ((r.tree.childrenFrom p (i + 1)).flatMap (r.whole levels)) :=
        finds_whole hw hs h hk₂.registry.shrinks (Nat.zero_le _) hl
          (h.length_flatMap_whole_le.trans_lt hsteps)
      rw [Tree.trailing_snoc hp hi, List.append_assoc, bind_assoc]
      refine younger.bind_at hk₂ (stays_forwardFrom hw hJ steps 0 p (i + 1)) fun k₃ hk₃ => ?_
      refine ih hk₃ upper hp fun reached k' hreached hk' => hf reached k' (fun hr => ?_) hk'
      have hlength := hreached hr
      rw [List.length_append, List.length_singleton]
      omega

omit hs in
include hJ in
/-- A child that is spared is still in its place. -/
lemma yields_nextChild (hm : r.tree.UpTo a m) (hi : r.tree.childAt n index = some m) :
    Yields (r.Spares a) (w.nextChild n index) (· = some m) := by
  refine (yields_ask hw hJ _).bind fun count hcount => ?_
  obtain ⟨r', hr', hcount⟩ := hcount
  have hlt : index < count := by
    rw [← hcount]
    exact hr'.sound.isForest.lt_of_childAt (hr'.childAt_eq hm hi)
  rw [if_pos hlt]
  exact yields_ask_of_eq hw hJ fun r' hr' => hr'.childAt_eq hm hi

omit hw hs in
/-- At its stop a walk breaks off, and what would come after it is never run. -/
lemma finds_atChild_stop {x y : WalkM (Registry × Nat) ObjectId Unit}
    {g : Unit → WalkM (Registry × Nat) ObjectId Unit} {l : List ObjectId} (hk : k.stop = some m) :
    Finds (w.atChild depth m x y >>= g) k l := by
  have reached : (k.stop == some m) = true := by simp [hk]
  unfold atChild
  rw [bind_assoc]
  refine finds_isStop_eq reached ?_
  rw [if_pos rfl, bind_assoc]
  exact finds_ask (Inquiry.shrinking_note _) finds_broken

include hJ in
/-- What a walk does at a child that is not its stop, for what comes after it. -/
lemma finds_atChild_enter {stop : Option ObjectId} {x y : WalkM (Registry × Nat) ObjectId Unit}
    {g : Unit → WalkM (Registry × Nat) ObjectId Unit} {l : List ObjectId}
    (ht : w.traverse = true) (hk : At (r.Spares a) stop k) (hstop : stop ≠ some m)
    (hx : ∀ k', At (r.Spares a) stop k' → ¬ w.maxDepth ≤ depth →
      Finds (x >>= fun _ => y >>= g) k' l)
    (hy : ∀ k', At (r.Spares a) stop k' → w.maxDepth ≤ depth → Finds (y >>= g) k' l) :
    Finds (w.atChild depth m x y >>= g) k (m :: l) := by
  have enters : Yields (r.Spares a) (w.enters m) (· = true) := fun s h =>
    ⟨(Inquiry.closed_yields.enters (yields_ask_anything hw hJ) m s h).1,
      (enters_live hw m s).trans ht⟩
  have other : (k.stop == some m) = false := by
    rw [hk.stop]
    simpa using hstop
  unfold atChild
  rw [bind_assoc]
  refine finds_isStop_eq other ?_
  rw [if_neg Bool.false_ne_true, bind_assoc]
  refine (finds_visit hw hs m).bind_at hk (stays_visit hw hJ m) fun k₁ hk₁ => ?_
  rw [bind_assoc]
  refine finds_lift hk₁ (shrinking_enters hw hs m) enters ?_
  rintro _ k₂ rfl hk₂
  rw [if_pos rfl]
  -- Too deep to go on below, the walk reports so and goes on behind the child.
  by_cases hd : w.maxDepth ≤ depth
  · rw [if_pos hd, bind_assoc]
    exact finds_lift hk₂ (Inquiry.shrinking_note _) (yields_note _) fun _ k₃ _ hk₃ => hy k₃ hk₃ hd
  · rw [if_neg hd, bind_assoc]
    exact hx k₂ hk₂ hd

include hJ h in
/-- A walk goes through the branch of a spared child that is not its stop, and then on. -/
lemma finds_spared {stop : Option ObjectId} {g : Unit → WalkM (Registry × Nat) ObjectId Unit}
    {l : List ObjectId} (ht : w.traverse = true) (hk : At (r.Spares a) stop k)
    (hm : r.tree.UpTo a m) (hi : r.tree.childAt n index = some m) (hstop : stop ≠ some m)
    (hl : w.maxDepth ≤ levels) (hwithin : r.tree.Within m levels)
    (hsteps : (r.whole levels m).length ≤ steps)
    (hrest : ∀ k', At (r.Spares a) stop k' →
      Finds (w.forwardFrom steps depth n (index + 1) >>= g) k' l) :
    Finds (w.forwardFrom (steps + 1) depth n index >>= g) k (r.whole levels m ++ l) := by
  rw [h.whole_eq hwithin, List.length_cons] at hsteps
  rw [forwardFrom_succ, bind_assoc, h.whole_eq hwithin, List.cons_append]
  refine finds_lift hk (shrinking_nextChild hw hs n index) (yields_nextChild hw hJ hm hi) ?_
  rintro _ k₁ rfl hk₁
  refine finds_atChild_enter hw hs hJ ht hk₁ hstop (fun k₂ hk₂ hdeep => ?_) fun k₂ hk₂ _ => ?_
  · have below : Finds (w.forwardFrom steps (depth + 1) m 0) k₂
        ((r.tree.childrenFrom m 0).flatMap (r.whole levels)) :=
      finds_whole hw hs h hk₂.registry.shrinks (by omega) hl (by omega)
    exact below.bind_at hk₂ (stays_forwardFrom hw hJ steps _ m 0) hrest
  · exact (hrest k₂ hk₂).mono (List.sublist_append_right _ l)

include hJ h in
/-- A walk from the beginning meets its stop, so what would come after it does not matter. It finds
part of what leads up to the stop. -/
lemma finds_to_stop {g : Unit → WalkM (Registry × Nat) ObjectId Unit} {c : ObjectId} {i : Nat}
    {ps : List Nat} (ht : w.traverse = true) (hk : At (r.Spares a) (some a) k)
    (hc : r.tree.childAt n i = some c) (hps : r.tree.follow c ps = some a) (hi : index ≤ i)
    (hd : depth + ps.length ≤ w.maxDepth) (hl : w.maxDepth ≤ levels)
    (hwithin : ∀ n, r.tree.Within n levels)
    (hsteps : ((((r.tree.childrenFrom n 0).take i).drop index).flatMap (r.whole levels) ++
      r.tree.leading (r.whole levels) c ps).length < steps) :
    Finds (w.forwardFrom steps depth n index >>= g) k
      ((((r.tree.childrenFrom n 0).take i).drop index).flatMap (r.whole levels) ++
        r.tree.leading (r.whole levels) c ps) := by
  have hforest := h.isForest
  -- A step is taken for each object before the stop, at whatever level, so the induction is on the
  -- steps and not on the path.
  induction steps generalizing n c i ps depth index k g with
  | zero => omega
  | succ steps ih =>
    have above : r.tree.UpTo a c := hforest.upTo_of_reaches (Or.inl rfl) ⟨ps, hps⟩
    rcases hi.lt_or_eq with hlt | rfl
    · -- An elder sibling comes first.
      have hcount := hforest.lt_of_childAt hc
      obtain ⟨m, hm, -⟩ := hforest.child n index (by omega)
      have elder : r.tree.UpTo a m := hforest.upTo_of_sibling above hm hc hlt
      have other : some a ≠ some m := by
        intro he
        cases he
        have self : r.tree.follow a [] = some a := rfl
        exact hforest.precedes_irrefl (precedes_of_siblings hm hc hlt self hps)
      rw [hforest.drop_take_childrenFrom hm hlt, List.flatMap_cons, List.append_assoc] at hsteps ⊢
      have hpos : 0 < (r.whole levels m).length := by
        rw [h.whole_eq (hwithin m)]
        exact Nat.succ_pos _
      rw [List.length_append] at hsteps
      refine finds_spared hw hs hJ h ht hk elder hm other hl (hwithin m) (by omega) ?_
      exact fun k' hk' => ih hk' hc hps hlt hd (by omega)
    · -- No elder sibling is left, and the next child is the stop or leads to it.
      rw [List.drop_eq_nil_of_le (List.length_take_le _ _), List.flatMap_nil,
        List.nil_append] at hsteps ⊢
      rw [forwardFrom_succ, bind_assoc]
      refine finds_lift hk (shrinking_nextChild hw hs n index) (yields_nextChild hw hJ above hc) ?_
      rintro _ k₁ rfl hk₁
      cases ps with
      | nil =>
        -- The child is the stop.
        cases hps
        exact finds_atChild_stop hk₁.stop
      | cons j ps =>
        -- The stop lies below this child, which is near enough to be entered.
        obtain ⟨d, hdc, hps'⟩ := follow_cons.1 hps
        have other : some a ≠ some c := by
          intro he
          cases he
          exact absurd (hforest.follow_self hps) (by simp)
        rw [leading, hdc, Option.map_some, Option.getD_some, List.cons_append] at hsteps ⊢
        rw [List.length_cons] at hsteps hd
        refine finds_atChild_enter hw hs hJ ht hk₁ other (fun k₂ hk₂ _ => ?_) fun k₂ _ hdeep => ?_
        · exact ih hk₂ hdc hps' (Nat.zero_le j) (by omega) (by rw [List.drop_zero]; omega)
        · omega

include hJ h in
/-- A sweep finds what is below the anchor, then what follows, and then what the last walk finds. -/
lemma finds_sweep {stop : Option ObjectId} {ps : List Nat} {l : List ObjectId}
    (hk : At (r.Spares a) stop k) (hps : r.tree.follow collection ps = some a)
    (hl : w.maxDepth ≤ levels) (hsteps : r.objects.bound < steps)
    (hin : (w.encloses collection a k.asked).1 = true)
    (hf : ∀ k', ps.length ≤ w.maxDepth → a ≠ collection → At (r.Spares a) (some a) k' →
      Finds (w.forward steps collection 0) k' l) :
    Finds (w.sweep steps collection a) k ((r.tree.childrenFrom a 0).flatMap (r.whole levels) ++
      (r.tree.trailing (r.whole levels) collection ps ++ l)) := by
  have after := (yields_encloses hw hJ h collection (Or.inl rfl)
    k.asked hk.registry).1
  unfold sweep
  refine finds_ask (shrinking_encloses hw hs collection a) ?_
  rw [hin, if_pos rfl]
  refine finds_stopAt ?_
  have start : At (r.Spares a) none
    ⟨(w.encloses collection a k.asked).2, none, k.found⟩ := ⟨after, rfl⟩
  have below : Finds (w.forward steps a 0) ⟨(w.encloses collection a k.asked).2, none, k.found⟩
      ((r.tree.childrenFrom a 0).flatMap (r.whole levels)) :=
    finds_whole hw hs h after.shrinks (Nat.zero_le _) hl (h.length_flatMap_whole_le.trans_lt hsteps)
  refine below.bind_at start (stays_forwardFrom hw hJ steps 0 a 0) fun k₁ hk₁ => ?_
  refine finds_ascend hw hs hJ h hk₁ (Or.inl rfl) hps hl hsteps fun reached k₂ hreached hk₂ => ?_
  -- The last walk is only made if the climb has come to the collection and begun below it.
  by_cases hagain : (reached && a != collection) = true
  · obtain ⟨hreach, hne⟩ := Bool.and_eq_true_iff.1 hagain
    rw [if_pos hagain]
    exact finds_stopAt (hf _ (hreached hreach) (bne_iff_ne.1 hne) ⟨hk₂.registry, rfl⟩)
  · rw [if_neg hagain]
    exact finds_pure

include hJ h in
/-- A sweep finds each object once. -/
theorem exists_finds_sweep (ht : w.traverse = true) {stop : Option ObjectId}
    (hk : At (r.Spares a) stop k) (hsteps : r.objects.bound < steps) :
    ∃ l, Finds (w.sweep steps collection a) k l ∧ l.Nodup := by
  have hforest := h.isForest
  -- Branches are taken deep enough to hold all that is there, so that they split around the anchor.
  obtain ⟨levels, hl, hw'⟩ : ∃ levels, w.maxDepth ≤ levels ∧ ∀ n, r.tree.Within n levels :=
    ⟨max w.maxDepth r.objects.bound, by omega, fun n => (h.within n).mono (by omega)⟩
  have inside := (yields_encloses hw hJ h collection (Or.inl rfl)
    k.asked hk.registry).2
  cases hb : (w.encloses collection a k.asked).1 with
  | false =>
    refine ⟨[], finds_ask (shrinking_encloses hw hs collection a) ?_, List.nodup_nil⟩
    rw [hb, if_neg Bool.false_ne_true, ← bind_pure (liftM (w.note _))]
    exact finds_ask (Inquiry.shrinking_note _) finds_pure
  | true =>
    obtain ⟨ps, hps⟩ := inside hb
    cases ps with
    | nil =>
      -- From the collection itself there is nothing to come back to.
      cases hps
      have self : r.tree.follow a [] = some a := rfl
      refine ⟨_, finds_sweep hw hs hJ h hk self hl hsteps hb (fun _ _ hne _ => absurd rfl hne)
        (l := []), ?_⟩
      rw [trailing, List.append_nil, List.append_nil]
      exact h.nodup_flatMap_whole
    | cons i ps =>
      obtain ⟨c, hc, hps'⟩ := follow_cons.1 hps
      obtain ⟨l, hlead⟩ : ∃ l, l = ((r.tree.childrenFrom collection 0).take i).flatMap
        (r.whole levels) ++ r.tree.leading (r.whole levels) c ps := ⟨_, rfl⟩
      have hleading : r.tree.leading (r.whole levels) collection (i :: ps) = collection :: l := by
        rw [leading, hc, hlead]
        rfl
      -- What the three parts of the sweep find at most are the parts of one list around the anchor,
      -- in which nothing is met twice.
      have split := hforest.flatMap_branch_split (fun _ => rfl) (hw' collection) hps hleading
      have nodup : ((r.tree.childrenFrom collection 0).flatMap (r.whole levels)).Nodup :=
        h.nodup_flatMap_whole
      have length : ((r.tree.childrenFrom collection 0).flatMap (r.whole levels)).length < steps :=
        h.length_flatMap_whole_le.trans_lt hsteps
      rw [split] at nodup length
      rw [List.length_append] at length
      refine ⟨_, finds_sweep hw hs hJ h hk hps hl hsteps hb (l := l) fun k' hd _ hk' => ?_, ?_⟩
      · rw [hlead] at length ⊢
        rw [List.length_cons] at hd
        rw [← bind_pure (w.forward steps collection 0)]
        exact finds_to_stop hw hs hJ h ht hk' hc hps' (Nat.zero_le i) (by omega) hl hw'
          (by rw [List.drop_zero]; omega)
      · rw [← List.append_assoc]
        refine (List.perm_append_comm.nodup_iff).1 (nodup.sublist ?_)
        exact (List.sublist_cons_self _ _).append_left l

end Walker

end AccessTree
