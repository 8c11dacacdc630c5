import Riscy.AArch64AllocOrder
import Riscy.Translate

/-! Ranges that start together. If only one register shares its start with another, there are
two orders, which differ in one exchange; they are allocated alike exactly if both ranges end
where they start. -/
namespace Riscy.AArch64

section Sorted
variable {α : Type*} {key : α → ℕ} {x a b c : α} {l l' t : List α}

/-- Keys are different, but `x` may share its own with another element. -/
def OneTie (key : α → ℕ) (x : α) (l : List α) : Prop :=
  ∀ a ∈ l, ∀ b ∈ l, key a = key b → a = b ∨ a = x ∨ b = x

theorem OneTie.mono (h : OneTie key x l) (hs : ∀ a ∈ l', a ∈ l) : OneTie key x l' :=
  fun a ha b hb => h a (hs a ha) b (hs b hb)

/-- What ties with the first element is the second one. -/
theorem OneTie.next (h : OneTie key x (a :: t)) (hnd : (a :: t).Nodup)
    (hs : (a :: t).Pairwise fun a b => key a ≤ key b) (hc : c ∈ t) (he : key a = key c) :
    ∃ t', t = c :: t' := by
  obtain ⟨hat, hnd'⟩ := List.nodup_cons.mp hnd
  obtain ⟨hle, hs'⟩ := List.pairwise_cons.mp hs
  cases t with
  | nil => cases hc
  | cons b t =>
    rcases List.mem_cons.mp hc with rfl | hc'
    · exact ⟨t, rfl⟩
    · have hab : key a ≤ key b := hle b (List.mem_cons_self ..)
      have hbc : key b ≤ key c := (List.pairwise_cons.mp hs').1 c hc'
      have hne : a ≠ b := fun he => hat (he ▸ List.mem_cons_self ..)
      have hne' : a ≠ c := fun he => hat (he ▸ hc)
      have hne'' : b ≠ c := fun he => (List.nodup_cons.mp hnd').1 (he ▸ hc')
      have h₁ := h a (by simp) b (by simp) (by omega)
      have h₂ := h a (by simp) c (by simp [hc']) he
      have h₃ := h b (by simp) c (by simp [hc']) (by omega)
      grind

/-- Two orders by the key are the same, or differ in an exchange. -/
theorem OneTie.eq_or_swap (h : OneTie key x l) (hnd : l.Nodup)
    (hs : l.Pairwise fun a b => key a ≤ key b) (hs' : l'.Pairwise fun a b => key a ≤ key b)
    (hp : l.Perm l') :
    l = l' ∨ ∃ A a b B, key a = key b ∧ l = A ++ a :: b :: B ∧ l' = A ++ b :: a :: B := by
  induction l generalizing l' with
  | nil => exact Or.inl hp.nil_eq
  | cons a t ih =>
    cases l' with
    | nil => exact absurd hp.eq_nil (List.cons_ne_nil _ _)
    | cons b t' =>
      obtain ⟨hle, hst⟩ := List.pairwise_cons.mp hs
      obtain ⟨hle', hst'⟩ := List.pairwise_cons.mp hs'
      have htie : OneTie key x t := h.mono fun a ha => List.mem_cons_of_mem _ ha
      by_cases hab : a = b
      · subst hab
        rcases ih htie (List.nodup_cons.mp hnd).2 hst hst' hp.cons_inv with rfl |
          ⟨A, c, d, B, hk, rfl, rfl⟩
        · exact Or.inl rfl
        · exact Or.inr ⟨a :: A, c, d, B, hk, rfl, rfl⟩
      · have hb : b ∈ t := (List.mem_cons.mp (hp.mem_iff.mpr (by simp))).resolve_left (Ne.symm hab)
        have ha : a ∈ t' := (List.mem_cons.mp (hp.mem_iff.mp (by simp))).resolve_left hab
        have hkey : key a = key b := le_antisymm (hle b hb) (hle' a ha)
        have h' : OneTie key x (b :: t') := h.mono fun c hc => hp.mem_iff.mpr hc
        obtain ⟨u, rfl⟩ := h.next hnd hs hb hkey
        obtain ⟨u', rfl⟩ := h'.next (hp.nodup_iff.mp hnd) hs' ha hkey.symm
        have hperm : u.Perm u' := (hp.trans (List.Perm.swap a b u')).cons_inv.cons_inv
        have hx : x ∉ u := by
          have hax := (h a (by simp) b (by simp) hkey).resolve_left hab
          simp only [List.nodup_cons, List.mem_cons, not_or] at hnd
          rcases hax with rfl | rfl
          · exact hnd.1.2
          · exact hnd.2.1
        have hu : u = u' := by
          refine List.Perm.eq_of_pairwise ?_ (List.pairwise_cons.mp hst).2
            (List.pairwise_cons.mp hst').2 hperm
          intro c d hc hd hcd hdc
          have hd' := hperm.mem_iff.mpr hd
          rcases h c (by simp [hc]) d (by simp [hd']) (le_antisymm hcd hdc) with he | rfl | rfl
          · exact he
          · exact absurd hc hx
          · exact absurd hd' hx
        subst hu
        exact Or.inr ⟨[], a, b, u, hkey, rfl, rfl⟩

/-- Elements that tie stand side by side. -/
theorem OneTie.adjacent (h : OneTie key x l) (hnd : l.Nodup)
    (hs : l.Pairwise fun a b => key a ≤ key b) (ha : a ∈ l) (hb : b ∈ l) (hne : a ≠ b)
    (he : key a = key b) : ∃ A B, l = A ++ a :: b :: B ∨ l = A ++ b :: a :: B := by
  induction l with
  | nil => cases ha
  | cons c t ih =>
    rcases List.mem_cons.mp ha with rfl | ha'
    · have hb' : b ∈ t := (List.mem_cons.mp hb).resolve_left (Ne.symm hne)
      obtain ⟨t', rfl⟩ := h.next hnd hs hb' he
      exact ⟨[], t', Or.inl rfl⟩
    · rcases List.mem_cons.mp hb with rfl | hb'
      · obtain ⟨t', rfl⟩ := h.next hnd hs ha' he.symm
        exact ⟨[], t', Or.inr rfl⟩
      · obtain ⟨A, B, rfl | rfl⟩ := ih (h.mono fun a ha => List.mem_cons_of_mem _ ha)
          (List.nodup_cons.mp hnd).2 (List.pairwise_cons.mp hs).2 ha' hb'
        · exact ⟨c :: A, B, Or.inl rfl⟩
        · exact ⟨c :: A, B, Or.inr rfl⟩

end Sorted

section Exchange
variable {s s' : AllocState} {x y it : Item} {items : List Item}

/-- States that differ only in the registers whose ranges are active. -/
structure Alike (s s' : AllocState) : Prop where
  pool : s.pool = s'.pool
  active : s.active.map (fun a => (a.p, a.lr)) = s'.active.map fun a => (a.p, a.lr)
  v2p : s.v2p = s'.v2p

theorem Alike.refl (s : AllocState) : Alike s s := ⟨rfl, rfl, rfl⟩

theorem Alike.expire (h : Alike s s') (cur : ℕ) : Alike (s.expire cur) (s'.expire cur) := by
  have hopen : ∀ acts : List Active, (acts.filter fun a => cur < a.lr.last).map
      (fun a => (a.p, a.lr)) = (acts.map fun a => (a.p, a.lr)).filter fun e => cur < e.2.last := by
    intro acts
    rw [List.filter_map]
    rfl
  have hended : ∀ acts : List Active, (acts.filter fun a => a.lr.last ≤ cur).map Active.p =
      ((acts.map fun a => (a.p, a.lr)).filter fun e => e.2.last ≤ cur).map Prod.fst := by
    intro acts
    rw [List.filter_map, List.map_map]
    rfl
  refine ⟨?_, ?_, h.v2p⟩
  · simp only [AllocState.expire, hended, h.pool, h.active]
  · simp only [AllocState.expire, hopen, h.active]

theorem Alike.assign {s₁ : AllocState} (h : Alike s s') (hs : s.assign it = .ok s₁) :
    ∃ s₁', s'.assign it = .ok s₁' ∧ Alike s₁ s₁' := by
  obtain ⟨pool, p, hpool, rfl⟩ := assign_eq hs
  have he := h.expire it.lr.start
  have hpool' := he.pool ▸ hpool
  refine ⟨⟨pool, (s'.expire it.lr.start).active ++ [⟨p, it.lr, it.v⟩],
    Function.update s'.v2p it.v (some p)⟩, ?_, rfl, ?_, ?_⟩
  · unfold AllocState.assign
    simp only [hpool', List.getLast?_concat, List.dropLast_concat]
    rfl
  · simp only [List.map_append, he.active, List.map_cons, List.map_nil]
  · rw [h.v2p]

theorem Alike.run {s₁ : AllocState} (h : Alike s s')
    (hs : items.foldlM AllocState.assign s = .ok s₁) :
    ∃ s₁', items.foldlM AllocState.assign s' = .ok s₁' ∧ s₁.v2p = s₁'.v2p := by
  induction items generalizing s s' with
  | nil =>
    cases hs
    exact ⟨s', rfl, h.v2p⟩
  | cons it items ih =>
    obtain ⟨s₂, ha, hs⟩ := run_cons.mp hs
    obtain ⟨s₂', ha', h'⟩ := h.assign ha
    obtain ⟨s₁', hs', hv⟩ := ih h' hs
    exact ⟨s₁', run_cons.mpr ⟨s₂', ha', hs'⟩, hv⟩

/-- What two items with one start are given: the second one takes the register of the first
one over if that has ended, and else the next register of the pool. -/
theorem assign_pair {s₁ s₂ : AllocState} (hx : s.assign x = .ok s₁) (hy : s₁.assign y = .ok s₂)
    (he : x.lr.start = y.lr.start) :
    ∃ pool p, (s.expire x.lr.start).pool = pool ++ [p] ∧
      (x.lr.last ≤ x.lr.start ∧ s₂ = ⟨pool, (s.expire x.lr.start).active ++ [⟨p, y.lr, y.v⟩],
          Function.update (Function.update s.v2p x.v (some p)) y.v (some p)⟩ ∨
        x.lr.start < x.lr.last ∧ ∃ pool' q, pool = pool' ++ [q] ∧
          s₂.v2p = Function.update (Function.update s.v2p x.v (some p)) y.v (some q)) := by
  obtain ⟨pool, p, hpool, rfl⟩ := assign_eq hx
  obtain ⟨pool', q, hpool', rfl⟩ := assign_eq hy
  refine ⟨pool, p, hpool, ?_⟩
  have hopen : ∀ a ∈ (s.expire x.lr.start).active, x.lr.start < a.lr.last := fun a ha => by
    simpa using (List.mem_filter.mp ha).2
  generalize (s.expire x.lr.start).active = act at hpool' hopen ⊢
  have hstay : (act.filter fun a => x.lr.start < a.lr.last) = act :=
    List.filter_eq_self.mpr fun a ha => decide_eq_true (hopen a ha)
  have hleave : (act.filter fun a => a.lr.last ≤ x.lr.start) = [] :=
    List.filter_eq_nil_iff.mpr fun a ha => by simpa using hopen a ha
  rw [← he] at hpool' ⊢
  simp only [AllocState.expire, List.filter_append, hstay, hleave, List.nil_append,
    List.filter_cons, List.filter_nil] at hpool' ⊢
  by_cases hend : x.lr.last ≤ x.lr.start
  · left
    have hno : ¬ x.lr.start < x.lr.last := not_lt.mpr hend
    simp only [hend, hno, decide_true, decide_false, if_true, Bool.false_eq_true, if_false,
      List.map_cons, List.map_nil, List.append_nil] at hpool' ⊢
    obtain ⟨rfl, hpq⟩ := List.append_inj' hpool' rfl
    cases hpq
    exact ⟨trivial, rfl⟩
  · right
    have hlt : x.lr.start < x.lr.last := not_le.mp hend
    simp only [hend, decide_false, Bool.false_eq_true, if_false, List.map_nil,
      List.append_nil] at hpool'
    exact ⟨hlt, pool', q, hpool', rfl⟩

theorem run_append {A B : List Item} : (A ++ B).foldlM AllocState.assign s = .ok s' ↔
    ∃ s₁, A.foldlM AllocState.assign s = .ok s₁ ∧ B.foldlM AllocState.assign s₁ = .ok s' := by
  induction A generalizing s with
  | nil =>
    constructor
    · exact fun h => ⟨s, rfl, h⟩
    · rintro ⟨_, ⟨⟩, h⟩
      exact h
  | cons it A ih =>
    rw [List.cons_append, run_cons]
    simp only [ih, run_cons]
    tauto

variable {A B : List Item} {asg asg' : RegAssignment}

/-- Two items with one start stand between others. -/
structure PairRun (A B : List Item) (x y : Item) (s s₂ : AllocState) (asg : RegAssignment) :
    Prop where
  before : A.foldlM AllocState.assign .initial = .ok s
  pair : ∃ s₁, s.assign x = .ok s₁ ∧ s₁.assign y = .ok s₂
  after : ∃ s₃, B.foldlM AllocState.assign s₂ = .ok s₃ ∧ s₃.v2p = asg

theorem pairRun (h : allocate (A ++ x :: y :: B) = .ok asg) :
    ∃ s s₂, PairRun A B x y s s₂ asg := by
  obtain ⟨s₃, hs, hasg⟩ := allocate_eq_ok.mp h
  obtain ⟨s, hA, hs⟩ := run_append.mp hs
  obtain ⟨s₁, hx, hs⟩ := run_cons.mp hs
  obtain ⟨s₂, hy, hB⟩ := run_cons.mp hs
  exact ⟨s, s₂, hA, ⟨s₁, hx, hy⟩, s₃, hB, hasg⟩

/-- Ranges of one point at one position can be exchanged. -/
theorem allocate_swap (hlr : x.lr = y.lr) (hend : x.lr.last ≤ x.lr.start) (hne : x.v ≠ y.v)
    (h : allocate (A ++ x :: y :: B) = .ok asg) (h' : allocate (A ++ y :: x :: B) = .ok asg') :
    asg = asg' := by
  obtain ⟨s, s₂, hA, ⟨s₁, hx, hy⟩, s₃, hB, rfl⟩ := pairRun h
  obtain ⟨s', s₂', hA', ⟨s₁', hy', hx'⟩, s₃', hB', rfl⟩ := pairRun h'
  obtain rfl : s = s' := Except.ok.inj (hA.symm.trans hA')
  have hlike : Alike s₂ s₂' := by
    obtain ⟨pool, p, hpool, ⟨-, rfl⟩ | ⟨hlt, -⟩⟩ := assign_pair hx hy (by rw [hlr])
    · obtain ⟨pool', p', hpool', ⟨-, rfl⟩ | ⟨hlt, -⟩⟩ := assign_pair hy' hx' (by rw [hlr])
      · rw [← hlr, hpool] at hpool'
        obtain ⟨rfl, hp⟩ := List.append_inj' hpool' rfl
        cases hp
        refine ⟨rfl, ?_, Function.update_comm hne ..⟩
        rw [hlr]
        simp
      · rw [← hlr] at hlt
        omega
    · omega
  obtain ⟨s₄, hs₄, hv⟩ := hlike.run hB
  obtain rfl : s₄ = s₃' := Except.ok.inj (hs₄.symm.trans hB')
  exact hv

theorem Pending.left {done : List Item} {cur : ℕ} (h : Pending done cur (A ++ B)) :
    Pending done cur A where
  starts := ⟨(List.pairwise_append.mp h.starts.1).1,
    fun it hit => h.starts.2 it (List.mem_append_left _ hit)⟩
  fresh := fun it hit => h.fresh it (List.mem_append_left _ hit)
  nodup := by
    have hnd := h.nodup
    rw [List.map_append] at hnd
    exact (List.nodup_append.mp hnd).1

theorem ItemOrder.split_nodup {live : LivenessMap} (ho : ItemOrder live (A ++ x :: y :: B)) :
    x.v ≠ y.v ∧ ∀ it ∈ B, it.v ≠ y.v := by
  have hnd := ho.pending.nodup
  rw [List.map_append, List.map_cons, List.map_cons] at hnd
  obtain ⟨hx, hy⟩ := List.nodup_cons.mp (List.nodup_append.mp hnd).2.1
  refine ⟨fun hv => hx (hv ▸ List.mem_cons_self ..), fun it hit hv => ?_⟩
  exact (List.nodup_cons.mp hy).1 (List.mem_map.mpr ⟨it, hit, hv⟩)

/-- Where two ranges start together and the order makes no difference, the first one has
ended at its start. -/
theorem ended_of_swap {live : LivenessMap} (ho : ItemOrder live (A ++ x :: y :: B))
    (he : x.lr.start = y.lr.start) (h : allocate (A ++ x :: y :: B) = .ok asg)
    (h' : allocate (A ++ y :: x :: B) = .ok asg) : x.lr.last ≤ x.lr.start := by
  obtain ⟨s, s₂, hA, ⟨s₁, hx, hy⟩, s₃, hB, hasg⟩ := pairRun h
  obtain ⟨s', s₂', hA', ⟨s₁', hy', hx'⟩, s₃', hB', hasg'⟩ := pairRun h'
  obtain rfl : s = s' := Except.ok.inj (hA.symm.trans hA')
  obtain ⟨hne, hkeep⟩ := ho.split_nodup
  have hsame : s₂.v2p y.v = s₂'.v2p y.v := by
    rw [← run_keeps hB hkeep, ← run_keeps hB' hkeep, hasg, hasg']
  obtain ⟨pool, p, hpool, ⟨hend, -⟩ | ⟨-, pool', q, rfl, hv⟩⟩ := assign_pair hx hy he
  · exact hend
  -- The second item of this order holds `q`, and as the first one of the other it holds `p`.
  · have hfirst : s₂'.v2p y.v = some p := by
      obtain ⟨pool₂, p₂, hpool₂, ⟨-, rfl⟩ | ⟨-, _, _, -, hv'⟩⟩ := assign_pair hy' hx' he.symm
      all_goals
        rw [← he, hpool] at hpool₂
        obtain ⟨-, hp⟩ := List.append_inj' hpool₂ rfl
        cases hp
      · exact (Function.update_of_ne hne.symm ..).trans (Function.update_self ..)
      · rw [hv']
        exact (Function.update_of_ne hne.symm ..).trans (Function.update_self ..)
    rw [hv, Function.update_self, hfirst] at hsame
    obtain ⟨c, hinv⟩ := AllocInv.initial.run ho.pending.left hA
    have hpnd := ((expire_perm s x.lr.start).trans hinv.pool).nodup_iff.mpr initialPool_nodup
    rw [hpool, Option.some.inj hsame, List.append_assoc, List.append_assoc] at hpnd
    have hpp := (List.nodup_append.mp hpnd).2.1
    exact absurd (List.mem_cons_self ..) (List.nodup_cons.mp hpp).1

end Exchange

section Orders
variable {live : LivenessMap} {items : List Item} {A B : List Item} {x y : Item}

theorem ItemOrder.swap_at (ho : ItemOrder live (A ++ x :: y :: B))
    (he : x.lr.start = y.lr.start) : ItemOrder live (A ++ y :: x :: B) where
  perm := ((List.Perm.swap x y B).append_left A).trans ho.perm
  starts := by
    obtain ⟨hA, hxy, hAxy⟩ := List.pairwise_append.mp ho.starts
    simp only [List.pairwise_cons, List.mem_cons, forall_eq_or_imp] at hxy
    refine List.pairwise_append.mpr ⟨hA, ?_, fun a ha b hb => hAxy a ha b ?_⟩
    · simp only [List.pairwise_cons, List.mem_cons, forall_eq_or_imp]
      exact ⟨⟨he.ge, hxy.2.1⟩, hxy.1.2, hxy.2.2⟩
    · simp only [List.mem_cons] at hb ⊢
      tauto

/-- Registers other than 1 start at different positions. -/
def StartsApart (live : LivenessMap) : Prop :=
  ∀ v w lr lr', v ≠ 1 → w ≠ 1 → live.lookup v = some lr → live.lookup w = some lr' →
    lr.start = lr'.start → v = w

/-- Where register 1 starts with another one, both ranges end there. -/
def TiesEnded (live : LivenessMap) : Prop :=
  ∀ lr w lr', w ≠ 1 → live.lookup 1 = some lr → live.lookup w = some lr' →
    lr.start = lr'.start → lr.last ≤ lr.start ∧ lr'.last ≤ lr.start

/-- All orders are allocated alike. -/
def OneAllocation (live : LivenessMap) : Prop :=
  ∃ asg, ∀ items, ItemOrder live items → allocate items = .ok asg

theorem StartsApart.oneTie (h : StartsApart live) (ho : ItemOrder live items) :
    OneTie (fun it => it.lr.start) ⟨1, (live.lookup 1).getD ⟨0, 0⟩⟩ items := by
  intro a ha b hb he
  have hla := (ho.mem_iff a).mp ha
  have hlb := (ho.mem_iff b).mp hb
  have hone : ∀ c : Item, live.lookup c.v = some c.lr → c.v = 1 →
      c = ⟨1, (live.lookup 1).getD ⟨0, 0⟩⟩ := by
    rintro ⟨v, lr⟩ hc rfl
    rw [hc]
    rfl
  by_cases ha1 : a.v = 1
  · exact Or.inr (Or.inl (hone a hla ha1))
  by_cases hb1 : b.v = 1
  · exact Or.inr (Or.inr (hone b hlb hb1))
  have hv := h _ _ _ _ ha1 hb1 hla hlb he
  rw [hv, hlb] at hla
  obtain ⟨v, lr⟩ := a
  obtain ⟨w, lr'⟩ := b
  cases hla
  exact Or.inl (congrArg (Item.mk · lr) hv)

theorem ItemOrder.nodup (ho : ItemOrder live items) : items.Nodup :=
  List.Nodup.of_map _ ho.pending.nodup

theorem StartsApart.oneAllocation (hapart : StartsApart live) (h : TiesEnded live)
    (hok : ∀ items, ItemOrder live items → ∃ asg, allocate items = .ok asg)
    (hvalid : ∀ v lr, live.lookup v = some lr → lr.start ≤ lr.last) : OneAllocation live := by
  have ho := sortedItems_order live
  obtain ⟨asg, ha⟩ := hok _ ho
  refine ⟨asg, fun items ho' => ?_⟩
  obtain ⟨asg', ha'⟩ := hok _ ho'
  rcases (hapart.oneTie ho).eq_or_swap ho.nodup ho.starts ho'.starts
    (ho.perm.trans ho'.perm.symm) with he | ⟨A, x, y, B, hkey, he, he'⟩
  · rw [← he, ha]
  · rw [he] at ha ho
    rw [he'] at ha'
    have hx := (ho.mem_iff x).mp (by simp)
    have hy := (ho.mem_iff y).mp (by simp)
    have hne := (ho.split_nodup).1
    have hends : x.lr.last ≤ x.lr.start ∧ y.lr.last ≤ x.lr.start := by
      by_cases hx1 : x.v = 1
      · exact h _ _ _ (fun hy1 => hne (hx1.trans hy1.symm)) (hx1 ▸ hx) hy hkey
      by_cases hy1 : y.v = 1
      · obtain ⟨hyend, hxend⟩ := h _ _ _ hx1 (hy1 ▸ hy) hx hkey.symm
        exact ⟨hxend.trans hkey.ge, hyend.trans hkey.ge⟩
      · exact absurd (hapart _ _ _ _ hx1 hy1 hx hy hkey) hne
    have hlr : x.lr = y.lr := by
      obtain ⟨v, s, l⟩ := x
      obtain ⟨w, s', l'⟩ := y
      have hxle := hvalid _ _ hx
      have hyle := hvalid _ _ hy
      simp only at hkey hends hxle hyle ⊢
      congr 1
      omega
    rw [he', ha', allocate_swap hlr hends.1 hne ha ha']

theorem StartsApart.tiesEnded (hapart : StartsApart live) (h : OneAllocation live) :
    TiesEnded live := by
  obtain ⟨asg, h⟩ := h
  intro lr w lr' hw hl hl' he
  have ho := sortedItems_order live
  have hx := (ho.mem_iff ⟨1, lr⟩).mpr hl
  have hy := (ho.mem_iff ⟨w, lr'⟩).mpr hl'
  have hne : (⟨1, lr⟩ : Item) ≠ ⟨w, lr'⟩ := fun hit => hw (congrArg Item.v hit).symm
  obtain ⟨A, B, hsplit | hsplit⟩ := (hapart.oneTie ho).adjacent ho.nodup ho.starts hx hy hne he
  · rw [hsplit] at ho
    have ho' := ho.swap_at he
    exact ⟨ended_of_swap ho he (h _ ho) (h _ ho'),
      (ended_of_swap ho' he.symm (h _ ho') (h _ ho)).trans he.ge⟩
  · rw [hsplit] at ho
    have ho' := ho.swap_at he.symm
    exact ⟨ended_of_swap ho' he (h _ ho') (h _ ho),
      (ended_of_swap ho he.symm (h _ ho) (h _ ho')).trans he.ge⟩

end Orders

end Riscy.AArch64
