import SpirvKernel.Proofs.Emission.Capacity
import SpirvKernel.Proofs.Emission.Decision

/-!
# Which methods are emitted

The header of a method is emitted unless a kernel gives something back, its body exactly if the method
is well-formed. A shortage apart, nothing else can go wrong.
-/

namespace SpirvKernel

open Attempt

/-! ## Storage -/

/-- A work item's own memory: the name points to local memory, and the size is known. -/
def Allocation.IsPrivate (m : Method) (a : Allocation) : Prop :=
  (∃ type, m.typeOf? a.value = some type ∧ type.space? = some .local) ∧ a.extent ≠ .dynamic

namespace Storage

variable {m : Method}

theorem isPrivate_iff_placeable (distinct : m.Distinct) :
    (∀ a ∈ (ofMethod m).item, a.IsPrivate m) ↔ ∀ v ∈ m.values, v.Placeable := by
  constructor
  · intro h v hv elem extent hk hspace
    have listed := mem_get_ofMethod hv hk
    rw [kindFor, if_neg hspace] at listed
    obtain ⟨⟨type, htype, hlocal⟩, hextent⟩ := h _ listed
    rw [distinct.typeOf?_value hv, Option.some.injEq] at htype
    exact ⟨htype ▸ hlocal, hextent⟩
  · intro h a ha
    obtain ⟨v, hv, hk, hid, hkind⟩ := mem_requested ha
    have hspace : v.type.space? ≠ some .shared := by
      intro shared
      rw [kindFor, if_pos shared] at hkind
      split at hkind <;> cases hkind
    obtain ⟨hlocal, hextent⟩ := h v hv _ _ hk hspace
    exact ⟨⟨v.type, hid ▸ distinct.typeOf?_value hv, hlocal⟩, hextent⟩

end Storage

namespace Emission

theorem decides_naming {κ β : Type} {H : (κ → Prop) → Nat → Emission → Prop} {f : β → Emit Unit}
    {name : β → κ} {N : κ → Prop} {bs : List β} {k : Nat} {s : Emission}
    (step : ∀ b N k s, ¬ N (name b) → H N (k + 1) s →
      Decides True (fun _ => H (fun u => N u ∨ u = name b) k) (f b) s)
    (nodup : (bs.map name).Nodup) (new : ∀ b ∈ bs, ¬ N (name b)) (h : H N (k + bs.length) s) :
    Decides True (fun _ => H (fun u => N u ∨ u ∈ bs.map name) k) (bs.forM f) s := by
  induction bs generalizing N s with
  | nil => exact settles_pure trivial (by simpa using h)
  | cons b bs ih =>
    rw [List.map_cons, List.nodup_cons] at nodup
    refine (step b N (k + bs.length) s (new b List.mem_cons_self) h).bind id fun _ s₁ _ h₁ => ?_
    have rest := ih nodup.2 (fun c hc hN => ?_) h₁
    · simpa only [List.map_cons, List.mem_cons, or_assoc] using rest
    · rcases hN with hN | heq
      · exact new c (List.mem_cons_of_mem b hc) hN
      · exact nodup.1 (heq ▸ List.mem_map_of_mem hc)

variable {p : Program} {N : ValueId → Prop} {L : BlockId → Prop} {us : List ValueId} {k : Nat}
  {s : Emission} {t : Task} {a : Allocation}

theorem checkSpace_ok_iff {type : Ty} {u : Unit} :
    checkSpace type = .ok u ↔ type.space? = some .local := by
  unfold checkSpace
  split <;> simp_all

theorem exists_content_iff : (∃ type, content a = .ok type) ↔ a.extent ≠ .dynamic := by
  unfold content
  split <;> simp_all

/-- Of the allocations, those of one element have names and the others wait for the casts `cs`. -/
def Placed (N : ValueId → Prop) (L : BlockId → Prop) (us : List ValueId) (k : Nat)
    (as : List Allocation) (cs : List Cast) (s : Emission) : Prop :=
  s.work.HasNames (fun u => N u ∨ ∃ a ∈ as, a.isArray = false ∧ u = a.value) L us k ∧
    cs.map (·.value) = (as.filter (·.isArray)).map (·.value)

theorem Placed.append {as bs : List Allocation} {cs ds : List Cast}
    (hcs : cs.map (·.value) = (as.filter (·.isArray)).map (·.value))
    (h : Placed (fun u => N u ∨ ∃ a ∈ as, a.isArray = false ∧ u = a.value) L us k bs ds s) :
    Placed N L us k (as ++ bs) (cs ++ ds) s := by
  refine ⟨h.1.names fun u => ?_, ?_⟩
  · simp only [List.mem_append, or_and_right, exists_or, or_assoc]
  · rw [List.map_append, hcs, h.2, List.filter_append, List.map_append]

theorem placed_array {c : Cast} (array : a.isArray = true) (hc : c.value = a.value)
    (h : s.work.HasNames N L us k) : Placed N L us k [a] [c] s := by
  refine ⟨h.names fun u => ?_, ?_⟩
  · simp [array]
  · simp [array, hc]

theorem placed_single (single : a.isArray = false)
    (h : s.work.HasNames (fun u => N u ∨ u = a.value) L us k) : Placed N L us k [a] [] s := by
  refine ⟨h.names fun u => ?_, ?_⟩
  · simp [single]
  · simp [single]

theorem decides_placeItem (new : ¬ N a.value) (h : s.work.HasNames N L us (k + 1)) :
    Decides (a.IsPrivate t.method) (fun r s' => Placed N L us k [a] r.toList s') (placeItem t a) s := by
  refine (decides_typeOf t a.value s).read (fun e => ?_) fun type _ htype => ?_
  · obtain ⟨⟨type, htype, -⟩, -⟩ := e
    simp [htype]
  have hE : a.IsPrivate t.method ↔ type.space? = some .local ∧ a.extent ≠ .dynamic := by
    simp [Allocation.IsPrivate, htype]
  refine settles_ofExcept.read (fun e => ?_) fun _ _ hspace => ?_
  · exact ⟨(), checkSpace_ok_iff.mpr (hE.mp e).1⟩
  refine settles_ofExcept.read (fun e => exists_content_iff.mpr (hE.mp e).2) fun held hheld _ => ?_
  have hv := hE.mpr ⟨checkSpace_ok_iff.mp hspace, exists_content_iff.mp hheld⟩
  refine (decides_declare (Dictionary.costs_pointerId False.elim) h).bind (fun _ => trivial)
    fun pointer s₁ _ h₁ => ?_
  split
  · rename_i array
    refine (decides_fresh h₁).bind (fun _ => trivial) fun id s₂ _ h₂ => ?_
    refine (decides_emit _ _ h₂).bind (fun _ => trivial) fun _ s₃ _ h₃ => ?_
    exact settles_pure hv (placed_array array rfl h₃)
  · rename_i single
    refine (decides_allocate h₁ new).bind (fun _ => trivial) fun id s₂ _ h₂ => ?_
    refine (decides_emit _ _ h₂).bind (fun _ => trivial) fun _ s₃ _ h₃ => ?_
    exact settles_pure hv (placed_single (by simpa using single) h₃)

theorem decides_placeGroup (new : ¬ N a.value) (h : s.work.HasNames N L us (k + 1)) :
    Decides True (fun r s' => Placed N L us k [a] r.toList s') (placeGroup a) s := by
  refine (decides_declare (Dictionary.costs_groupVariable False.elim) (h.le (Nat.le_succ k))).bind id
    fun id s₁ _ h₁ => ?_
  split
  · rename_i array
    exact settles_pure trivial (placed_array array rfl h₁)
  · rename_i single
    refine (decides_bind id h₁ new).bind (fun _ => trivial) fun _ s₂ _ h₂ => ?_
    exact settles_pure trivial (placed_single (by simpa using single) h₂)

theorem decides_placing {f : Allocation → Emit (Option Cast)} {C : Allocation → Prop}
    {as : List Allocation}
    (step : ∀ a N k s, ¬ N a.value → s.work.HasNames N L us (k + 1) →
      Decides (C a) (fun r s' => Placed N L us k [a] r.toList s') (f a) s)
    (nodup : (as.map (·.value)).Nodup) (new : ∀ a ∈ as, ¬ N a.value)
    (h : s.work.HasNames N L us (k + as.length)) :
    Decides (∀ a ∈ as, C a) (fun rs s' => Placed N L us k as (rs.filterMap id) s')
      (as.mapM f) s := by
  induction as generalizing N s with
  | nil => exact settles_pure nofun ⟨h.names (by simp), rfl⟩
  | cons a as ih =>
    rw [List.map_cons, List.nodup_cons] at nodup
    rw [List.mapM_cons, List.forall_mem_cons]
    have first := step a N (k + as.length) s (new a List.mem_cons_self) h
    refine first.bind And.left fun r s₁ hr h₁ => ?_
    have rest := ih nodup.2 (fun b hb hN => ?_) h₁.1
    · refine rest.bind And.right fun rs s₂ hrs h₂ => settles_pure ⟨hr, hrs⟩ ?_
      have both := Placed.append h₁.2 h₂
      cases r <;> exact both
    · rcases hN with hN | ⟨c, hc, -, heq⟩
      · exact new b (List.mem_cons_of_mem a hb) hN
      · rw [List.mem_singleton.mp hc] at heq
        exact nodup.1 (heq ▸ List.mem_map_of_mem hb)

theorem decides_emitCast {c : Cast} (new : ¬ N c.value) (h : s.work.HasNames N L us (k + 1)) :
    Decides True (fun _ s' => s'.work.HasNames (fun u => N u ∨ u = c.value) L us k) (emitCast c) s := by
  refine (decides_declare (Dictionary.costs_pointerId False.elim) h).bind id fun type s₁ _ h₁ => ?_
  refine (decides_allocate h₁ new).bind id fun id s₂ _ h₂ => ?_
  exact decides_emit _ _ h₂

theorem decides_castsOf {as : List Allocation} {cs : List Cast}
    (nodup : (as.map (·.value)).Nodup) (new : ∀ a ∈ as, ¬ N a.value)
    (h : Placed N L us (k + as.length) as cs s) :
    Decides True (fun _ s' => s'.work.HasNames (fun u => N u ∨ u ∈ as.map (·.value)) L us k)
      (cs.forM emitCast) s := by
  obtain ⟨h, hcs⟩ := h
  have arrays : ((as.filter (·.isArray)).map (·.value)).Sublist (as.map (·.value)) :=
    List.filter_sublist.map _
  have length : cs.length ≤ as.length := by
    have := congrArg List.length hcs
    have := List.length_filter_le (·.isArray) as
    simp only [List.length_map] at *
    omega
  have nodup' : (cs.map (·.value)).Nodup := by
    rw [hcs]
    exact nodup.sublist arrays
  have unnamed : ∀ c ∈ cs, ¬ (N c.value ∨ ∃ a ∈ as, a.isArray = false ∧ c.value = a.value) := by
    intro c hc
    have hvalue : c.value ∈ (as.filter (·.isArray)).map (·.value) := hcs ▸ List.mem_map_of_mem hc
    obtain ⟨a, ha, hac⟩ := List.mem_map.mp hvalue
    obtain ⟨ha, array⟩ := List.mem_filter.mp ha
    rintro (hN | ⟨b, hb, single, hbc⟩)
    · exact new a ha (hac ▸ hN)
    · obtain rfl := List.inj_on_of_nodup_map nodup ha hb (hac.trans hbc)
      rw [array] at single
      cases single
  have room : s.work.HasNames _ L us (k + cs.length) := h.le (by omega)
  have casts := decides_naming (H := fun N k s => s.work.HasNames N L us k)
    (fun _ _ _ _ => decides_emitCast) nodup' unnamed room
  refine casts.imp fun _ s' h' => h'.names fun u => ?_
  rw [hcs]
  simp only [List.mem_map, List.mem_filter]
  grind

theorem decides_emitStorage (nodup : (t.storage.all.map (·.value)).Nodup)
    (new : ∀ a ∈ t.storage.all, ¬ N a.value)
    (h : s.work.HasNames N L us (k + 2 * t.storage.all.length)) :
    Decides (∀ a ∈ t.storage.item, a.IsPrivate t.method)
      (fun _ s' => s'.work.HasNames (fun u => N u ∨ u ∈ t.storage.all.map (·.value)) L us k)
      (emitStorage t) s := by
  have split := nodup
  rw [Storage.all, List.map_append, List.nodup_append] at split
  obtain ⟨hitems, hgroups, apart⟩ := split
  have length : t.storage.all.length =
      t.storage.item.length + (t.storage.group ++ t.storage.dynamicGroup).length := by
    rw [Storage.all, List.length_append]
  have room : s.work.HasNames N L us (k + t.storage.all.length +
      (t.storage.group ++ t.storage.dynamicGroup).length + t.storage.item.length) :=
    h.le (by omega)
  have items := decides_placing (fun _ _ _ _ => decides_placeItem (t := t)) hitems
    (fun a ha => new a (List.mem_append_left _ ha)) room
  refine items.bind id fun rs s₁ hE h₁ => ?_
  have groups := decides_placing (fun _ _ _ _ => decides_placeGroup) hgroups (fun a ha hN => ?_) h₁.1
  · refine groups.bind (fun _ => by simp) fun qs s₂ _ h₂ => ?_
    rw [List.filterMap_append]
    exact (decides_castsOf nodup new (h₂.append h₁.2)).also hE
  · rcases hN with hN | ⟨b, hb, -, heq⟩
    · exact new a (List.mem_append_right _ ha) hN
    · exact apart _ (List.mem_map_of_mem hb) _ (List.mem_map_of_mem ha) heq.symm

/-! ## Terminators -/

theorem decides_switchCases {width : IntWidth} {cases : List (UInt64 × BlockId)}
    (h : s.work.HasNames N L us k) :
    Decides (∀ b ∈ cases.map (·.2), L b) (fun _ s' => True ∧ s' = s) (switchCases width cases) s := by
  induction cases with
  | nil => exact settles_pure nofun ⟨trivial, rfl⟩
  | cons c cases ih =>
    rw [List.map_cons, List.forall_mem_cons]
    refine (decides_label h c.2).read And.left fun block hc _ => ?_
    refine ih.read And.right fun rest hcases _ => ?_
    exact settles_pure ⟨hc, hcases⟩ ⟨trivial, rfl⟩

variable {m : Method} {before : List Value}

theorem decides_emitTerminator {x : Terminator} (hbefore : before ⊆ t.method.values)
    (h : s.work.HasNames (t.method.InScope before) t.method.HasBlock us k) :
    Decides (x.WellFormed t.method before)
      (fun _ s' => s'.work.HasNames (t.method.InScope before) t.method.HasBlock us k)
      (emitTerminator t x) s := by
  cases x with
  | ret v =>
    cases v with
    | none =>
      have hE : (Terminator.ret none).WellFormed t.method before := by
        simp [Terminator.wellFormed_iff, Terminator.operands, Terminator.successors]
      exact (decides_emit _ _ h).also hE
    | some v =>
      have hE : (Terminator.ret (some v)).WellFormed t.method before ↔
          t.method.InScope before v := by
        simp [Terminator.wellFormed_iff, Terminator.operands, Terminator.successors]
      refine (decides_operand h v).read hE.mp fun x hx _ => ?_
      exact (decides_emit _ _ h).also (hE.mpr hx)
  | branch target =>
    have hE : (Terminator.branch target).WellFormed t.method before ↔ t.method.HasBlock target := by
      simp [Terminator.wellFormed_iff, Terminator.operands, Terminator.successors]
    refine (decides_label h target).read hE.mp fun block hb _ => ?_
    exact (decides_emit _ _ h).also (hE.mpr hb)
  | condBranch cond yes no =>
    have hE : (Terminator.condBranch cond yes no).WellFormed t.method before ↔
        t.method.InScope before cond ∧ t.method.HasBlock yes ∧ t.method.HasBlock no := by
      simp [Terminator.wellFormed_iff, Terminator.operands, Terminator.successors]
    refine (decides_operand h cond).read (fun e => (hE.mp e).1) fun x hx _ => ?_
    refine (decides_label h yes).read (fun e => (hE.mp e).2.1) fun block hyes _ => ?_
    refine (decides_label h no).read (fun e => (hE.mp e).2.2) fun block' hno _ => ?_
    exact (decides_emit _ _ h).also (hE.mpr ⟨hx, hyes, hno⟩)
  | switch selector cases default =>
    have hE : (Terminator.switch selector cases default).WellFormed t.method before ↔
        t.method.InScope before selector ∧
          (t.method.HasBlock default ∧ ∀ b ∈ cases.map (·.2), t.method.HasBlock b) ∧
            ∃ type width, t.method.typeOf? selector = some type ∧ type.scalarClass = .int width := by
      simp only [Terminator.wellFormed_iff, Terminator.operands, Terminator.successors, List.mem_singleton,
        forall_eq, List.forall_mem_cons]
      refine and_congr_right fun _ => and_congr_right fun _ => ⟨fun h => h _ _ _ rfl, fun h => ?_⟩
      rintro _ _ _ ⟨⟩
      exact h
    refine (decides_typeOf t selector s).read (fun e => (hE.mp e).1.typed hbefore)
      fun type _ htype => ?_
    simp only [htype, Option.some.injEq, exists_and_left, exists_eq_left'] at hE
    split
    · rename_i width hwidth
      refine (decides_operand h selector).read (fun e => (hE.mp e).1) fun x hx _ => ?_
      refine (decides_label h default).read (fun e => (hE.mp e).2.1.1) fun block hdefault _ => ?_
      refine (decides_switchCases h).read (fun e => (hE.mp e).2.1.2) fun rest hcases _ => ?_
      exact (decides_emit _ _ h).also (hE.mpr ⟨hx, ⟨hdefault, hcases⟩, width, hwidth⟩)
    · rename_i hclass
      refine settles_fail fun e => ?_
      obtain ⟨-, -, width, hwidth⟩ := hE.mp e
      exact hclass width hwidth
  | unreachable =>
    have hE : Terminator.unreachable.WellFormed t.method before := by
      simp [Terminator.wellFormed_iff, Terminator.operands, Terminator.successors]
    exact (decides_emit _ _ h).also hE

/-! ## Blocks -/

end Emission

/-- The values that phis take along edges. -/
def phiOperandsOf (vs : List Value) : List ValueId := vs.flatMap fun v => v.kind.incoming.map Prod.fst

/-- What is asked of a block when it is emitted. -/
structure Block.Emittable (p : Program) (m : Method) (before : List Value) (b : Block) : Prop where
  values : InTurn (fun done v => v.Emittable p m (m.InScope (before ++ done)) m.HasBlock) [] b.body
  terminator : b.terminator.WellFormed m (before ++ b.body)

namespace Emission

/-- The state after the values `before` of the method were emitted. -/
def Reached (m : Method) (before : List Value) (s : Emission) : Prop :=
  ∃ k, s.work.HasNames (m.InScope before) m.HasBlock (phiOperandsOf before) k ∧
    (before.map Value.idCount).sum + k = (m.values.map Value.idCount).sum

theorem decides_nextValue {v : Value} {after : List Value} (serves : t.Serves p)
    (hv : t.method.values = before ++ v :: after) (h : Reached t.method before s) :
    Decides (v.Emittable p t.method (t.method.InScope before) t.method.HasBlock)
      (fun _ => Reached t.method (before ++ [v])) (emitValue t v) s := by
  obtain ⟨k, h, hk⟩ := h
  have hmem : v ∈ t.method.values := by simp [hv]
  have hbefore : before ⊆ t.method.values := by simp [hv]
  have hsum : (t.method.values.map Value.idCount).sum =
      (before.map Value.idCount).sum + (v.idCount + (after.map Value.idCount).sum) := by
    simp [hv]
  have room : s.work.HasNames (t.method.InScope before) t.method.HasBlock (phiOperandsOf before)
      ((after.map Value.idCount).sum + v.idCount) := h.le (by omega)
  have step := decides_emitValue serves hmem (fun _ hu => hu.typed hbefore) (.alloca hmem)
    (serves.distinct.not_inScope hv) room
  have hphi : phiOperandsOf (before ++ [v]) =
      phiOperandsOf before ++ v.kind.incoming.map Prod.fst := by simp [phiOperandsOf]
  refine step.imp fun _ s' h' => ⟨(after.map Value.idCount).sum, ?_, ?_⟩
  · rw [hphi]
    exact h'.names fun u => Method.inScope_append_iff.symm
  · simp only [List.map_append, List.map_cons, List.map_nil, List.sum_append, List.sum_cons,
      List.sum_nil]
    omega

theorem decides_values {vs after : List Value} (serves : t.Serves p)
    (hvs : t.method.values = before ++ (vs ++ after)) (h : Reached t.method before s) :
    Decides (InTurn (fun done v => v.Emittable p t.method (t.method.InScope (before ++ done))
        t.method.HasBlock) [] vs)
      (fun _ => Reached t.method (before ++ vs)) (vs.forM (emitValue t)) s := by
  refine settles_forM (I := fun done => Reached t.method (before ++ done)) ?_ rfl (by simpa using h)
  intro done v rest s hsplit hdone
  have split : t.method.values = before ++ done ++ v :: (rest ++ after) := by simp [hvs, hsplit]
  rw [← List.append_assoc]
  exact decides_nextValue serves split hdone

theorem decides_emitBlock {N : ValueId → Prop} {us : List ValueId} {k : Nat} {first : Emit Unit}
    {A : Prop} {b : Block} {after : List Value} (serves : t.Serves p)
    (hvs : t.method.values = before ++ (b.body ++ after)) (hb : t.method.HasBlock b.id)
    (hfirst : ∀ s, s.work.HasNames N t.method.HasBlock us k →
      Decides A (fun _ => Reached t.method before) first s)
    (h : s.work.HasNames N t.method.HasBlock us k) :
    Decides (A ∧ b.Emittable p t.method before) (fun _ => Reached t.method (before ++ b.body))
      (emitBlock t first b) s := by
  refine (decides_label h b.id).read (fun _ => hb) fun id _ _ => ?_
  refine (decides_emit _ _ h).bind (fun _ => trivial) fun _ s₁ _ h₁ => ?_
  refine (hfirst s₁ h₁).bind And.left fun _ s₂ hA h₂ => ?_
  refine (decides_values serves hvs h₂).bind (fun e => e.2.values) fun _ s₃ hvalues h₃ => ?_
  obtain ⟨k, h₃, hk⟩ := h₃
  have hbefore : before ++ b.body ⊆ t.method.values := by
    rw [hvs, ← List.append_assoc]
    exact List.subset_append_left _ _
  refine ((decides_emitTerminator hbefore h₃).congr ?_).imp fun _ s₄ h₄ => ⟨k, h₄, hk⟩
  exact ⟨fun h => ⟨hA, hvalues, h⟩, fun e => e.2.terminator⟩

theorem decides_laterBlocks {done rest : List Block} (serves : t.Serves p)
    (hblocks : t.method.blocks = done ++ rest)
    (h : Reached t.method (done.flatMap (·.body)) s) :
    Decides (InTurn (fun done b => b.Emittable p t.method (done.flatMap (·.body))) done rest)
      (fun _ => Reached t.method t.method.values) (rest.forM (emitBlock t (pure ()))) s := by
  refine settles_forM (I := fun done => Reached t.method (done.flatMap (·.body))) ?_ hblocks h
  intro done b rest s hsplit hdone
  have hvs : t.method.values =
      done.flatMap (·.body) ++ (b.body ++ rest.flatMap (·.body)) := by
    simp [Method.values, hsplit]
  obtain ⟨k, h, hk⟩ := hdone
  have block : Decides (True ∧ b.Emittable p t.method (done.flatMap (·.body))) _
      (emitBlock t (pure ()) b) s :=
    decides_emitBlock serves hvs ⟨b, by simp [hsplit], rfl⟩
      (fun s hs => settles_pure trivial ⟨k, hs, hk⟩) h
  rw [List.flatMap_append, List.flatMap_singleton]
  exact block.congr (by simp)

/-! ## The header -/

theorem decides_emitParam {x : Param} (new : ¬ N x.value) (h : s.work.HasNames N L us (k + 1)) :
    Decides True (fun _ s' => s'.work.HasNames (fun u => N u ∨ u = x.value) L us k) (emitParam x) s := by
  refine (decides_typeWord x.type h).bind id fun type s₁ _ h₁ => ?_
  refine (decides_allocate h₁ new).bind id fun id s₂ _ h₂ => ?_
  exact decides_emit _ _ h₂

theorem decides_emitName (h : s.work.HasNames N L us k) :
    Decides True (fun _ s' => s'.work.HasNames N L us k) (emitName t) s := by
  unfold emitName
  split
  · exact (decides_emitTo _ _ _ h).imp fun _ _ => And.left
  · exact settles_pure trivial h

theorem decides_emitGroupSize (h : s.work.HasNames N L us k) : Decides True
    (fun _ s' => s'.work.HasNames N L us k ∧ s'.work.stage = s.work.stage) (emitGroupSize t) s := by
  unfold emitGroupSize
  split
  · exact decides_emitTo _ _ _ h
  · exact settles_pure trivial ⟨h, rfl⟩

theorem decides_setStage (stage : Stage) (h : s.work.HasNames N L us k) :
    Decides True (fun _ s' => s'.work.HasNames N L us k ∧ s'.work.stage = stage) (setStage stage) s :=
  ⟨trivial, h.congr rfl rfl, rfl⟩

theorem decides_expect {call : Call} (hstage : s.work.stage = call.stage) :
    Decides True (fun _ s' => True ∧ s' = s) (expect call) s := by
  refine settles_state.read id ?_
  rintro _ - rfl
  rw [if_pos hstage]
  exact settles_pure trivial ⟨trivial, rfl⟩

theorem decides_checkResult : Decides (t.entry.isSome = true → t.method.returnType = .void)
    (fun _ s' => True ∧ s' = s) (checkResult t) s := by
  unfold checkResult
  split
  · rename_i h
    refine settles_fail fun hE => ?_
    simp only [Bool.and_eq_true, decide_eq_true_eq] at h
    exact h.2 (hE h.1)
  · rename_i h
    refine settles_pure (fun kernel => ?_) ⟨trivial, rfl⟩
    simpa [kernel] using h

/-- A header is refused to kernels that give something back and to no other method. -/
theorem decides_header (nodup : (t.method.params.map (·.value)).Nodup)
    (hstage : s.work.stage = .constructed)
    (h : s.work.HasNames (fun _ => False) L us (k + t.method.params.length)) :
    Decides (t.entry.isSome = true → t.method.returnType = .void)
      (fun _ s' => s'.work.HasNames (fun u => u ∈ t.method.params.map (·.value)) L us k ∧
        s'.work.stage = .afterHeader) (header t) s := by
  refine (decides_expect hstage).read (fun _ => trivial) fun _ _ _ => ?_
  refine decides_checkResult.read id fun _ hE _ => ?_
  refine Settles.also ?_ hE
  refine (decides_typeWord _ h).bind id fun type s₁ _ h₁ => ?_
  refine (decides_declare (Dictionary.costs_signatureId False.elim) h₁).bind id
    fun signature s₂ _ h₂ => ?_
  refine (decides_declare (costs_predeclare False.elim) h₂).bind id fun _ s₃ _ h₃ => ?_
  refine (decides_emit _ _ h₃).bind id fun _ s₄ _ h₄ => ?_
  have params := decides_naming (H := fun N k s => s.work.HasNames N L us k)
    (fun _ _ _ _ => decides_emitParam) nodup (fun _ _ => id) h₄
  refine params.bind id fun _ s₅ _ h₅ => ?_
  refine (decides_emitName h₅).bind id fun _ s₆ _ h₆ => ?_
  refine (decides_setStage _ h₆).bind id fun _ s₇ _ h₇ => ?_
  refine (decides_emitGroupSize h₇.1).imp fun _ s₈ h₈ => ⟨h₈.1.names fun u => ?_, ?_⟩
  · rw [false_or]
  · rw [h₈.2, h₇.2]
    rfl

/-! ## The body -/

theorem decides_allocateLabel {b : Block} (new : ¬ L b.id) (h : s.work.HasNames N L us (k + 1)) :
    Decides True (fun _ s' => s'.work.HasNames N (fun c => L c ∨ c = b.id) us k)
      (allocateLabel b) s := by
  have base : Decides _ _ (onTable (IdTable.allocate (.block b.id))) s :=
    settles_of_iff fun _ _ => allocate_ok_iff
  have named : Decides True (fun _ s' => s'.work.HasNames N (fun c => L c ∨ c = b.id) us k)
      (onTable (IdTable.allocate (.block b.id))) s := by
    refine (base.imp fun _ _ hs => ?_).congr ⟨fun _ => trivial, fun _ => ?_⟩
    · obtain ⟨-, -, -, rfl⟩ := hs
      exact h.taken.labelled b.id s.nextId
    · have := h.room
      rw [← h.blocks, Option.not_isSome_iff_eq_none] at new
      exact ⟨_, _, new, by omega, rfl, rfl⟩
  exact named.bind id fun _ s₁ _ h₁ => settles_pure trivial h₁

theorem decides_resolve {q : Pending} (h : s.work.HasNames N L us k) :
    Decides (N q.value) (fun _ s' => s'.work.HasNames N L us k) (resolve q) s :=
  (decides_operand h q.value).read id fun _ hq _ => ⟨hq, h.congr rfl rfl⟩

theorem decides_resolves {qs : List Pending} (h : s.work.HasNames N L us k) :
    Decides (∀ q ∈ qs, N q.value) (fun _ s' => s'.work.HasNames N L us k) (qs.forM resolve) s := by
  induction qs generalizing s with
  | nil => exact settles_pure nofun h
  | cons q qs ih =>
    rw [List.forall_mem_cons]
    refine (decides_resolve h).bind And.left fun _ s₁ hq h₁ => ?_
    exact (ih h₁).congr ⟨fun h => ⟨hq, h⟩, And.right⟩

theorem decides_resolveAll (h : s.work.HasNames N L us k) :
    Decides (∀ u ∈ us, N u) (fun _ s' => s'.work.HasNames N L [] k) resolveAll s := by
  refine settles_state.read (fun _ => trivial) ?_
  rintro _ - rfl
  have cleared : Decides True (fun _ s' => s'.work.HasNames N L [] k)
      (onWork (change fun w => { w with pending := [] })) s :=
    ⟨trivial, h.values, h.blocks, h.room, nofun, nofun⟩
  refine cleared.bind (fun _ => trivial) fun _ s₁ _ h₁ => (decides_resolves h₁).congr ?_
  constructor
  · intro hq u hu
    rcases h.accounted u hu with hN | ⟨q, hmem, rfl⟩
    · exact hN
    · exact hq q hmem
  · intro hu q hq
    exact hu _ (h.missing q hq)

end Emission

namespace Method

variable {p : Program} {m : Method}

theorem mem_values {b : Block} {v : Value} (hb : b ∈ m.blocks) (hv : v ∈ b.body) : v ∈ m.values :=
  List.mem_flatMap.mpr ⟨b, hb, hv⟩

/-- A method is well-formed if its blocks can be emitted and every phi finds its values. -/
theorem wellFormed_iff_emittable : m.WellFormed p ↔
    m.blocks ≠ [] ∧ (∀ v ∈ m.values, v.Placeable) ∧
      InTurn (fun done b => b.Emittable p m (done.flatMap (·.body))) [] m.blocks ∧
        ∀ u ∈ phiOperandsOf m.values, m.InScope m.values u := by
  constructor
  · intro h
    refine ⟨h.nonempty, h.storage, ?_, fun u hu => ?_⟩
    · refine h.blocks.imp fun done b hb hwell => ⟨?_, hwell.terminator⟩
      refine hwell.values.imp fun before v hv hvalue => ?_
      exact ⟨hvalue.operands, hvalue.supported, fun x hx =>
        ⟨(hvalue.incoming x hx).1.typed (List.Subset.refl _), (hvalue.incoming x hx).2⟩⟩
    · obtain ⟨v, hv, hmem⟩ := List.mem_flatMap.mp hu
      obtain ⟨x, hx, rfl⟩ := List.mem_map.mp hmem
      obtain ⟨b, hb, hv⟩ := List.mem_flatMap.mp hv
      obtain ⟨done, hwell⟩ := h.blocks.mem hb
      obtain ⟨before, hvalue⟩ := hwell.values.mem hv
      exact (hvalue.incoming x hx).1
  · rintro ⟨nonempty, storage, blocks, phis⟩
    refine ⟨nonempty, storage, blocks.imp fun done b hb hready => ⟨?_, hready.terminator⟩⟩
    refine hready.values.imp fun before v hv hvalue => ?_
    refine ⟨hvalue.operands, hvalue.supported, fun x hx => ⟨?_, (hvalue.incoming x hx).2⟩⟩
    exact phis x.1 (List.mem_flatMap.mpr ⟨v, mem_values hb hv, List.mem_map_of_mem hx⟩)

theorem inScope_nil_iff {u : ValueId} : m.InScope [] u ↔
    u ∈ m.params.map (·.value) ∨ u ∈ (Storage.ofMethod m).all.map (·.value) := by
  rw [(Storage.values_ofMethod_perm m).mem_iff]
  constructor
  · intro h
    cases h with
    | param h => exact .inl (List.mem_map_of_mem h)
    | alloca h ha => exact .inr (List.mem_map_of_mem (List.mem_filter.mpr ⟨h, ha⟩))
    | earlier h => cases h
  · rintro (h | h)
    · obtain ⟨x, hx, rfl⟩ := List.mem_map.mp h
      exact .param hx
    · obtain ⟨v, hv, rfl⟩ := List.mem_map.mp h
      exact .alloca (List.mem_filter.mp hv).1 (List.mem_filter.mp hv).2

theorem idCounts_le (m : Method) :
    (m.values.map Value.idCount).sum + 2 * (Storage.ofMethod m).all.length ≤ 3 * m.values.length := by
  -- Allocations take their identifiers at the top, all other values where they stand.
  have allocations := (Storage.values_ofMethod_perm m).length_eq
  rw [List.length_map, List.length_map] at allocations
  rw [allocations]
  induction m.values with
  | nil => exact Nat.le_refl _
  | cons v vs ih =>
    rw [List.map_cons, List.sum_cons, Value.idCount, List.filter_cons]
    cases v.kind.isAlloca <;> simp <;> omega

end Method

namespace Emission

variable {p : Program} {s : Emission} {t : Task} {k : Nat}

theorem decides_storage (serves : t.Serves p)
    (h : s.work.HasNames (· ∈ t.method.params.map (·.value)) t.method.HasBlock []
      ((t.method.values.map Value.idCount).sum + 2 * (Storage.ofMethod t.method).all.length)) :
    Decides (∀ v ∈ t.method.values, v.Placeable) (fun _ => Reached t.method []) (emitStorage t) s := by
  have nodup := serves.distinct.values
  rw [List.nodup_append] at nodup
  obtain ⟨-, hvalues, apart⟩ := nodup
  have perm := Storage.values_ofMethod_perm t.method
  have sublist : ((t.method.values.filter (·.kind.isAlloca)).map (·.id)).Sublist
      (t.method.values.map (·.id)) := List.filter_sublist.map _
  rw [← Storage.isPrivate_iff_placeable serves.distinct]
  rw [← serves.storage] at h perm ⊢
  have storage := decides_emitStorage (perm.nodup_iff.mpr (hvalues.sublist sublist))
    (fun a ha hparam => ?_) h
  · refine storage.imp fun _ s' h' => ⟨_, h'.names fun u => ?_, Nat.zero_add _⟩
    rw [serves.storage]
    exact Method.inScope_nil_iff.symm
  · have hmem := sublist.subset (perm.subset (List.mem_map_of_mem ha))
    exact apart _ hparam _ hmem rfl

/-- The body of a method is emitted exactly if the method is well-formed. -/
theorem decides_body (serves : t.Serves p) (hstage : s.work.stage = .afterHeader)
    (h : s.work.HasNames (· ∈ t.method.params.map (·.value)) (fun _ => False) []
      (3 * t.method.values.length + t.method.blocks.length)) :
    Decides (t.method.WellFormed p) (fun _ s' => s'.work.stage = .afterBody) (body t) s := by
  have hE := Method.wellFormed_iff_emittable (p := p) (m := t.method)
  refine (decides_expect hstage).read (fun _ => trivial) fun _ _ _ => ?_
  cases hblocks : t.method.blocks with
  | nil => exact settles_fail fun e => (hE.mp e).1 hblocks
  | cons entry blocks =>
    rw [hblocks] at hE h
    have labels := decides_naming (H := fun L k s => s.work.HasNames _ L [] k)
      (fun _ _ _ _ => decides_allocateLabel) (hblocks ▸ serves.distinct.blocks) (fun _ _ => id) h
    refine labels.bind (fun _ => trivial) fun _ s₁ _ h₁ => ?_
    have known : (fun b => False ∨ b ∈ (entry :: blocks).map (·.id)) = t.method.HasBlock := by
      funext b
      rw [false_or, ← hblocks]
      exact propext List.mem_map
    rw [known] at h₁
    have hvs : t.method.values = [] ++ (entry.body ++ blocks.flatMap (·.body)) := by
      rw [Method.values, hblocks]
      rfl
    -- The memory of all blocks is set up in the first.
    have first := decides_emitBlock serves hvs ⟨entry, by simp [hblocks], rfl⟩
      (fun _ => decides_storage serves) (h₁.le t.method.idCounts_le)
    refine first.bind (fun e => ⟨(hE.mp e).2.1, (hE.mp e).2.2.1.1⟩) fun _ s₂ hentry h₂ => ?_
    have later : Decides (InTurn _ [entry] blocks) _ (blocks.forM (emitBlock t (pure ()))) s₂ :=
      decides_laterBlocks serves hblocks (by simpa using h₂)
    refine later.bind (fun e => (hE.mp e).2.2.1.2) fun _ s₃ hlater h₃ => ?_
    obtain ⟨k, h₃, -⟩ := h₃
    refine (decides_resolveAll h₃).bind (fun e => (hE.mp e).2.2.2) fun _ s₄ hphis h₄ => ?_
    -- From here on only a shortage can stop the run.
    refine Settles.also ?_ (hE.mpr ⟨List.cons_ne_nil _ _, hentry.1, ⟨hentry.2, hlater⟩, hphis⟩)
    refine (decides_emit _ _ h₄).bind id fun _ s₅ _ h₅ => ?_
    exact (decides_setStage _ h₅).imp fun _ _ h => h.2

end Emission

end SpirvKernel
