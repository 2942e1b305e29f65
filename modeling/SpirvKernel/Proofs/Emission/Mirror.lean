import SpirvKernel.Emission.Function
import SpirvKernel.Proofs.Emission.Footprint
import SpirvKernel.Proofs.Emission.Function
import SpirvKernel.Proofs.Emission.Likeness

/-!
# Functions of methods that are alike

The body of a method makes the same requests whatever the dictionary holds. Where they are answered
alike for two methods that are alike, the functions are alike too. The header is mirrored by a header
that starts from the same dictionary.
-/

namespace SpirvKernel.Emission

open Attempt

variable {N : Naming} {R : Word → Word → Prop} {task task' : Task}

/-! ## Storage -/

def Cast.request (c : Cast) : Dictionary.Request := .pointer c.elem c.storage

structure Cast.Like (N : Naming) (R : Word → Word → Prop) (c c' : Cast) : Prop where
  source : R c.source.word c'.source.word
  value : N.value c.value c'.value
  elem : c'.elem = c.elem
  storage : c'.storage = c.storage

section

variable {a a' : Allocation}

theorem isArray_eq (ha : a.Like N a') : a'.isArray = a.isArray := by
  rw [Allocation.isArray, Allocation.isArray, ha.extent]

theorem content_eq (ha : a.Like N a') : content a' = content a := by
  rw [content, content, ha.elem, ha.extent]

theorem mirrors_placeItem (total : ∀ a, ∃ b, R a b) (ht : task.Like N R task') (ha : a.Like N a') :
    Mirrors N R (itemRequests a)
      (fun c c' => Option.Rel (Cast.Like N R) c c' ∧ c.map Cast.request = castRequest? .function a)
      (placeItem task a) (placeItem task' a') := by
  refine (mirrors_typeOf ht ha.value).first ?_
  rintro type _ ⟨rfl, -⟩
  refine (mirrors_ofExcept _).first fun _ _ _ => ?_
  rw [content_eq ha]
  refine (mirrors_ofExcept _).first ?_
  rintro content _ ⟨rfl, hcontent⟩
  rw [itemRequests, hcontent]
  refine (mirrors_declare total (.pointer content .function)).last fun p p' hp => ?_
  rw [isArray_eq ha, castRequest?]
  split
  · refine mirrors_take.first ?_
    rintro id _ ⟨rfl, own⟩
    refine Mirrors.first (mirrors_emit ?_) fun _ _ _ => mirrors_pure ⟨?_, rfl⟩
    · exact .lead hp (.lead own (.lead rfl (.nil _)))
    · exact .some ⟨own, ha.value, ha.elem, rfl⟩
  · refine (mirrors_allocate (Entity.like_value ha.value)).first ?_
    rintro id _ ⟨rfl, own⟩
    refine Mirrors.first (mirrors_emit ?_) fun _ _ _ => mirrors_pure ⟨.none, rfl⟩
    exact .lead hp (.lead own (.lead rfl (.nil _)))

theorem mirrors_placeGroup (total : ∀ a, ∃ b, R a b) (ha : a.Like N a') :
    Mirrors N R [.groupVariable a.elem a.extent]
      (fun c c' => Option.Rel (Cast.Like N R) c c' ∧ c.map Cast.request = castRequest? .workgroup a)
      (placeGroup a) (placeGroup a') := by
  rw [placeGroup, placeGroup, ha.elem, ha.extent, isArray_eq ha, castRequest?]
  refine (mirrors_declare total (.groupVariable a.elem a.extent)).last fun id id' hid => ?_
  split
  · exact mirrors_pure ⟨.some ⟨hid, ha.value, rfl, rfl⟩, rfl⟩
  · exact (mirrors_bind ha.value hid).first fun _ _ _ => mirrors_pure ⟨.none, rfl⟩

theorem mirrors_emitCast (total : ∀ a, ∃ b, R a b) {c c' : Cast} (hc : c.Like N R c') :
    Mirrors N R [c.request] (fun _ _ => True) (emitCast c) (emitCast c') := by
  rw [emitCast, emitCast, hc.elem, hc.storage]
  refine (mirrors_declare total (.pointer c.elem c.storage)).last fun p p' hp => ?_
  refine (mirrors_allocate (Entity.like_value hc.value)).first ?_
  rintro id _ ⟨rfl, own⟩
  exact mirrors_emit (aligned_computation rfl hp own (.cons hc.source .nil))

theorem castRequests_eq {as : List Allocation} {cs : List (Option Cast)} {storage : StorageClass}
    (h : cs.map (Option.map Cast.request) = as.map (castRequest? storage)) :
    (cs.filterMap id).flatMap (fun c => [c.request]) = as.filterMap (castRequest? storage) := by
  have hcs : (cs.filterMap id).flatMap (fun c => [c.request]) =
      (cs.map (Option.map Cast.request)).filterMap id := by
    rw [← List.map_eq_flatMap, List.map_filterMap, List.filterMap_map]
    rfl
  rw [hcs, h, List.filterMap_map]
  rfl

theorem mirrors_emitStorage (total : ∀ a, ∃ b, R a b) (ht : task.Like N R task') :
    Mirrors N R (storageRequests task.storage) (fun _ _ => True) (emitStorage task)
      (emitStorage task') := by
  have groups := List.rel_append ht.storage.group ht.storage.dynamicGroup
  refine (mirrors_mapM ht.storage.item fun a a' ha => mirrors_placeItem total ht ha).bind ?_
  rintro items items' ⟨hitems, items_eq⟩
  refine (mirrors_mapM groups fun a a' ha => mirrors_placeGroup total ha).bind ?_
  rintro casts casts' ⟨hcasts, casts_eq⟩
  rw [← castRequests_eq items_eq, ← castRequests_eq casts_eq, ← List.flatMap_append,
    ← List.filterMap_append]
  refine mirrors_forM ?_ fun c c' hc => mirrors_emitCast total hc
  exact List.rel_filterMap (fun _ _ h => h) (List.rel_append hitems hcasts)

end

/-! ## Terminators -/

theorem mirrors_switchCases (width : IntWidth) {cases cases' : List (UInt64 × BlockId)}
    (h : List.Forall₂ (Case.Like N) cases cases') :
    Mirrors N R [] Eq (switchCases width cases) (switchCases width cases') := by
  induction h with
  | nil => exact mirrors_pure rfl
  | @cons x y _ _ hxy _ ih =>
    obtain ⟨literal, target⟩ := x
    obtain ⟨_, target'⟩ := y
    obtain ⟨rfl, htarget⟩ := hxy
    refine (mirrors_label htarget).first ?_
    rintro block _ ⟨rfl, -⟩
    refine ih.first ?_
    rintro rest _ rfl
    exact mirrors_pure rfl

theorem mirrors_emitTerminator (ht : task.Like N R task') {x x' : Terminator} (hx : x.Like N x') :
    Mirrors N R [] (fun _ _ => True) (emitTerminator task x) (emitTerminator task' x') := by
  cases hx with
  | leave => exact mirrors_emit (.nil _)
  | ret ha =>
    refine (mirrors_operand ha).first fun x y hxy => ?_
    exact mirrors_emit (.lead hxy (.nil _))
  | branch hb =>
    refine (mirrors_label hb).first ?_
    rintro block _ ⟨rfl, own⟩
    exact mirrors_emit (.lead own (.nil _))
  | condBranch ha hb hc =>
    refine (mirrors_operand ha).first fun x y hxy => ?_
    refine (mirrors_label hb).first ?_
    rintro yes _ ⟨rfl, own⟩
    refine (mirrors_label hc).first ?_
    rintro no _ ⟨rfl, own'⟩
    exact mirrors_emit (.lead hxy (.lead own (.lead own' (.nil _))))
  | switch ha hcases hb =>
    refine (mirrors_typeOf ht ha).first ?_
    rintro type _ ⟨rfl, -⟩
    split
    · refine (mirrors_operand ha).first fun x y hxy => ?_
      refine (mirrors_label hb).first ?_
      rintro block _ ⟨rfl, own⟩
      refine (mirrors_switchCases _ hcases).first ?_
      rintro rest _ rfl
      refine mirrors_emit (.lead hxy (.lead own (aligned_rest ?_)))
      exact List.forall₂_same.mpr fun _ _ => rfl
    · exact mirrors_fail
  | unreachable => exact mirrors_emit (.nil _)

/-! ## Bodies -/

theorem mirrors_emitBlock (total : ∀ a, ∃ b, R a b) (ht : task.Like N R task')
    {rs : List Dictionary.Request} {first first' : Emit Unit}
    (hfirst : Mirrors N R rs (fun _ _ => True) first first') {b b' : Block} (hb : b.Like N b') :
    Mirrors N R (rs ++ blockRequests task.method b) (fun _ _ => True) (emitBlock task first b)
      (emitBlock task' first' b') := by
  refine (mirrors_label hb.id).first ?_
  rintro id _ ⟨rfl, own⟩
  refine Mirrors.first (mirrors_emit ?_) fun _ _ _ => ?_
  · exact .lead own (.nil _)
  refine hfirst.bind fun _ _ _ => ?_
  have values := mirrors_forM hb.body fun v v' hv => mirrors_emitValue total ht hv
  exact values.last fun _ _ _ => mirrors_emitTerminator ht hb.terminator

theorem mirrors_allocateLabel {b b' : Block} (hb : b.Like N b') :
    Mirrors N R [] (fun _ _ => True) (allocateLabel b) (allocateLabel b') :=
  (mirrors_allocate (Entity.like_block hb.id)).first fun _ _ _ =>
    mirrors_pure trivial

theorem mirrors_allocateLabels {bs bs' : List Block} (h : List.Forall₂ (Block.Like N) bs bs') :
    Mirrors N R [] (fun _ _ => True) (bs.forM allocateLabel) (bs'.forM allocateLabel) := by
  have labels := mirrors_forM (N := N) (R := R) h fun b b' hb => mirrors_allocateLabel hb
  rwa [List.flatMap_eq_nil_iff.mpr fun _ _ => rfl] at labels

theorem mirrors_expect (call : Call) :
    Mirrors N R [] (fun _ _ => True) (expect call) (expect call) := by
  refine mirrors_state.first fun s t like => ?_
  rw [like.work.stage]
  split
  · exact mirrors_pure trivial
  · exact mirrors_fail

theorem mirrors_setStage (stage : Stage) :
    Mirrors N R [] (fun _ _ => True) (setStage stage) (setStage stage) := by
  refine mirrors_of fun s _ s' t run like => ?_
  simp only [setStage, onWork, onPart_ok_iff, change_ok_iff] at run ⊢
  obtain ⟨_, rfl, rfl⟩ := run
  exact ⟨rfl, (), _, ⟨_, rfl, rfl⟩, rfl, trivial, like.target, { like.work with stage := rfl }⟩

theorem Aligned.set {rest : Slot} {slots : List Slot} {as bs : List Word}
    (h : Aligned R rest slots as bs) (hrest : rest ≠ .literal) (hslots : ∀ slot ∈ slots, slot ≠ .literal)
    (k : Nat) {x y : Word} (hxy : R x y) : Aligned R rest slots (as.set k x) (bs.set k y) := by
  -- In a phi all operands are identifiers.
  have fills {slot : Slot} (hslot : slot ≠ .literal) : slot.Matches R x y := by
    cases slot with
    | literal => exact absurd rfl hslot
    | result | use | mention => exact hxy
  induction h generalizing k with
  | nil slots => exact .nil slots
  | lead head tail ih =>
    cases k with
    | zero => exact .lead (fills (hslots _ List.mem_cons_self)) tail
    | succ k => exact .lead head (ih (fun slot hslot => hslots slot (List.mem_cons_of_mem _ hslot)) k)
  | rest head tail ih =>
    cases k with
    | zero => exact .rest (fills hrest) tail
    | succ k => exact .rest head (ih hslots k)

theorem Alike.set {i j : Instruction} {ws : List Word} (h : i.Alike R j) (hi : i = .of .phi ws)
    (k : Nat) {x y : Word} (hxy : R x y) :
    Instruction.Alike R { i with operands := i.operands.set k x }
      { j with operands := j.operands.set k y } := by
  obtain @⟨op, as, bs, operands⟩ := h
  obtain rfl : op = .phi := by
    have := congrArg Instruction.opcode? hi
    simpa only [Instruction.opcode?_of, Option.some.injEq] using this
  exact .of (Aligned.set operands nofun (by simp [Opcode.format]) k hxy)

/-- The state in which a place of a phi has been filled. -/
def filled (s : Emission) (p : Pending) (x : Word) : Emission :=
  { s with work := { s.work with
    output := s.work.output.set .functions <| s.work.output.functions.modify p.instruction fun i =>
      { i with operands := i.operands.set p.operand x } } }

theorem resolve_ok_iff {p : Pending} {s s' : Emission} : resolve p s = (.ok (), s') ↔
    ∃ x, s.work.table.value? p.value = some x ∧ s' = s.filled p x := by
  simp only [resolve, bind_eq_ok_iff, operand_ok_iff, onWork, onPart_ok_iff, change_ok_iff]
  constructor
  · rintro ⟨x, _, ⟨hx, rfl⟩, _, rfl, rfl⟩
    exact ⟨x, hx, rfl⟩
  · rintro ⟨x, hx, rfl⟩
    exact ⟨x, s, ⟨hx, rfl⟩, _, rfl, rfl⟩

theorem isPhi_filled {s : Emission} {p : Pending} (x : Word) {q : Pending} (h : s.work.IsPhi q) :
    (s.filled p x).work.IsPhi q := by
  obtain ⟨ws, hws⟩ := h
  unfold Work.IsPhi Emission.filled
  simp only [Layout.set, List.getElem?_modify, hws]
  by_cases hq : p.instruction = q.instruction
  · exact ⟨ws.set p.operand x, by simp [hq, Instruction.of]⟩
  · exact ⟨ws, by simp [hq]⟩

theorem Like.filled {s t : Emission} (like : Like N R s t) {p q : Pending} (hpq : p.Like N q)
    (hp : s.work.IsPhi p) {x y : Word} (hxy : R x y) : Like N R (s.filled p x) (t.filled q y) where
  target := like.target
  work := { like.work with
    output := fun sec => by
      obtain ⟨ws, hws⟩ := hp
      simp only [Emission.filled, Layout.get_set]
      split
      · rw [hpq.instruction, hpq.operand]
        refine forall₂_modify (like.work.output .functions) fun i j hi hij => ?_
        have hphi : some i = some (.of .phi ws) := hi.symm.trans hws
        exact Alike.set hij (Option.some.inj hphi) p.operand hxy
      · exact like.work.output sec
    phis := fun p' hp' => isPhi_filled x (like.work.phis p' hp') }

theorem resolves_mirrored {ps qs : List Pending} (h : List.Forall₂ (Pending.Like N) ps qs)
    {s s' t : Emission} (like : Like N R s t) (hphi : ∀ p ∈ ps, s.work.IsPhi p)
    (run : ps.forM resolve s = (.ok (), s')) :
    s'.dictionary = s.dictionary ∧ ∃ t', qs.forM resolve t = (.ok (), t') ∧
      t'.dictionary = t.dictionary ∧ Like N R s' t' := by
  induction h generalizing s t with
  | nil =>
    obtain rfl := forM_nil_ok_iff.mp run
    exact ⟨rfl, t, rfl, rfl, like⟩
  | @cons p q ps qs hpq _ ih =>
    obtain ⟨s₁, run₁, run₂⟩ := forM_cons_ok_iff.mp run
    obtain ⟨x, hx, rfl⟩ := resolve_ok_iff.mp run₁
    obtain ⟨y, hy, hxy⟩ := like.work.value? hpq.value hx
    have like₁ := like.filled hpq (hphi p List.mem_cons_self) hxy
    have hphi₁ : ∀ p' ∈ ps, (s.filled p x).work.IsPhi p' := fun p' hp' =>
      isPhi_filled x (hphi p' (List.mem_cons_of_mem p hp'))
    obtain ⟨hd, t', run', hd', like'⟩ := ih like₁ hphi₁ run₂
    refine ⟨hd, t', forM_cons_ok_iff.mpr ⟨t.filled q y, ?_, run'⟩, hd', like'⟩
    exact resolve_ok_iff.mpr ⟨y, hy, rfl⟩

theorem mirrors_resolveAll : Mirrors N R [] (fun _ _ => True) resolveAll resolveAll := by
  refine mirrors_of fun s _ s' t run like => ?_
  simp only [resolveAll, bind_eq_ok_iff, state_ok_iff, onWork, onPart_ok_iff, change_ok_iff] at run ⊢
  obtain ⟨_, _, ⟨rfl, rfl⟩, _, _, ⟨_, rfl, rfl⟩, run⟩ := run
  have cleared : Like N R { s with work := { s.work with pending := [] } }
      { t with work := { t.work with pending := [] } } :=
    ⟨like.target, { like.work with pending := .nil, phis := by simp }⟩
  obtain ⟨hd, t', run', hd', like'⟩ := resolves_mirrored like.work.pending cleared like.work.phis run
  exact ⟨hd, (), t', ⟨t, t, ⟨rfl, rfl⟩, (), _, ⟨_, rfl, rfl⟩, run'⟩, hd', trivial, like'⟩

theorem mirrors_body (total : ∀ a, ∃ b, R a b) (ht : task.Like N R task') :
    Mirrors N R (bodyRequests task) (fun _ _ => True) (body task) (body task') := by
  refine (mirrors_expect .body).first fun _ _ _ => ?_
  have hblocks := ht.method.blocks
  rw [bodyRequests]
  generalize task.method.blocks = blocks at hblocks
  generalize task'.method.blocks = blocks' at hblocks
  cases hblocks with
  | nil => exact mirrors_fail
  | cons hentry hblocks =>
    refine (mirrors_allocateLabels (.cons hentry hblocks)).first fun _ _ _ => ?_
    refine (mirrors_emitBlock total ht (mirrors_emitStorage total ht) hentry).bind fun _ _ _ => ?_
    have nothing : Mirrors N R [] (fun _ _ => True) (pure ()) (pure ()) := mirrors_pure trivial
    have rest := mirrors_forM hblocks fun b b' hb => mirrors_emitBlock total ht nothing hb
    refine rest.last fun _ _ _ => ?_
    refine mirrors_resolveAll.first fun _ _ _ => ?_
    refine Mirrors.first (mirrors_emit (.nil _)) fun _ _ _ => ?_
    exact mirrors_setStage _

/-! ## The same dictionary -/

structure Twin (N : Naming) (R : Word → Word → Prop) (s t : Emission) : Prop extends Like N R s t where
  dictionary : t.dictionary = s.dictionary

section

variable {α β : Type} {P : α → β → Prop} {rs : List Dictionary.Request} {s s' t : Emission}

/-- Twins stay twins if the identifiers that are given out are the same for both. -/
theorem Mirrors.twin {x : Emit α} {y : Emit β} (h : Mirrors N R rs P x y) {a : α}
    (run : x s = (.ok a, s')) (twin : Twin N R s t)
    (own : ∀ ids, Answers rs s.dictionary ids s'.dictionary → ∀ id ∈ ids, R id.word id.word) :
    ∃ b t', y t = (.ok b, t') ∧ P a b ∧ Twin N R s' t' := by
  obtain ⟨ids, answers, -, mirror⟩ := h s a s' t run twin.toLike
  have answers' : Answers rs t.dictionary ids s'.dictionary := by rwa [twin.dictionary]
  obtain ⟨b, t', run', hd', hP, like'⟩ := mirror ids _ answers' (List.forall₂_same.mpr (own ids answers))
  exact ⟨b, t', run', hP, like', hd'⟩

theorem Mirrors.twin_quiet {x : Emit α} {y : Emit β} (h : Mirrors N R [] P x y) {a : α}
    (run : x s = (.ok a, s')) (twin : Twin N R s t) :
    s'.dictionary = s.dictionary ∧ ∃ b t', y t = (.ok b, t') ∧ P a b ∧ Twin N R s' t' := by
  have none {ids : List Id} (answers : Answers [] s.dictionary ids s'.dictionary) :
      ids = [] ∧ s.dictionary = s'.dictionary := mapM_nil_ok_iff.mp answers
  obtain ⟨ids, answers, -⟩ := h s a s' t run twin.toLike
  refine ⟨(none answers).2.symm, h.twin run twin fun ids answers id hid => ?_⟩
  rw [(none answers).1] at hid
  cases hid

theorem Twin.declare {x : Declare α} {a : α} (twin : Twin N R s t)
    (run : declare x s = (.ok a, s')) :
    ∃ t', Emission.declare x t = (.ok a, t') ∧ Twin N R s' t' := by
  obtain ⟨d, hd, rfl⟩ := onPart_ok_iff.mp run
  refine ⟨{ t with dictionary := d }, onPart_ok_iff.mpr ⟨d, ?_, rfl⟩, ⟨twin.target, twin.work⟩, rfl⟩
  rwa [twin.dictionary]

theorem Twin.typeWord {type : Ty} {w : Word} (twin : Twin N R s t)
    (run : typeWord type s = (.ok w, s')) :
    ∃ t', Emission.typeWord type t = (.ok w, t') ∧ Twin N R s' t' := by
  obtain ⟨id, hid, rfl⟩ := map_ok_iff.mp run
  obtain ⟨t', run', twin'⟩ := twin.declare hid
  exact ⟨t', map_ok_iff.mpr ⟨id, run', rfl⟩, twin'⟩

end

/-! ## Headers -/

theorem predeclare_eq {m m' : Method} (h : m.Like N m') : predeclare m' = predeclare m := by
  have each {v v' : Value} (hv : v.Like N v') : predeclareValue v' = predeclareValue v := by
    have hkind := hv.kind
    rw [predeclareValue, predeclareValue, hv.type]
    generalize v.kind = kind at hkind
    generalize v'.kind = kind' at hkind
    cases hkind <;> rfl
  have values := h.values
  rw [predeclare, predeclare]
  generalize m.values = vs at values
  generalize m'.values = vs' at values
  induction values with
  | nil => rfl
  | cons hv _ ih => rw [List.forM, List.forM, each hv, ih]

theorem mirrors_checkResult (ht : task.Like N R task') :
    Mirrors N R [] (fun _ _ => True) (checkResult task) (checkResult task') := by
  have hentry : task'.entry.isSome = task.entry.isSome := by
    have := congrArg Option.isSome ht.entry
    rwa [Option.isSome_map, Option.isSome_map] at this
  rw [checkResult, checkResult, hentry, ht.method.returnType]
  split
  · exact mirrors_fail
  · exact mirrors_pure trivial

theorem mirrors_emitName (ht : task.Like N R task') :
    Mirrors N R [] (fun _ _ => True) (emitName task) (emitName task') := by
  rw [emitName, emitName, ht.frame.debugNames, ht.id, ht.method.name]
  split
  · exact mirrors_emitTo (.lead ht.own (aligned_rest (List.forall₂_same.mpr fun _ _ => rfl)))
  · exact mirrors_pure trivial

theorem mirrors_emitGroupSize (ht : task.Like N R task') :
    Mirrors N R [] (fun _ _ => True) (emitGroupSize task) (emitGroupSize task') := by
  have hsize : task'.entry.bind EntryPoint.groupSize = task.entry.bind EntryPoint.groupSize := by
    have join (o : Option EntryPoint) :
        o.bind EntryPoint.groupSize = (o.map EntryPoint.groupSize).join := by
      cases o <;> rfl
    rw [join, join, ht.entry]
  rw [emitGroupSize, emitGroupSize, hsize, ht.id]
  split
  · exact mirrors_emitTo (.lead ht.own (aligned_rest (List.forall₂_same.mpr fun _ _ => rfl)))
  · exact mirrors_pure trivial

theorem dictionary_emit {op : Opcode} {ws : List Word} {s s' : Emission} {u : Unit}
    (h : emit op ws s = (.ok u, s')) : s'.dictionary = s.dictionary := by
  obtain ⟨-, rfl⟩ := emit_ok_iff.mp h
  rfl

theorem params_mirrored {ps ps' : List Param} (h : List.Forall₂ (Param.Like N) ps ps') {s s' t : Emission}
    (twin : Twin N R s t) (run : ps.forM emitParam s = (.ok (), s'))
    (own : ∀ k id, s'.dictionary.get? k = some id → R id.word id.word) :
    ∃ t', ps'.forM emitParam t = (.ok (), t') ∧ Twin N R s' t' := by
  induction h generalizing s t with
  | nil =>
    obtain rfl := forM_nil_ok_iff.mp run
    exact ⟨t, rfl, twin⟩
  | @cons p p' ps ps' hp _ ih =>
    obtain ⟨s₁, run₁, run₂⟩ := forM_cons_ok_iff.mp run
    simp only [emitParam, bind_eq_ok_iff] at run₁ ⊢
    obtain ⟨_, s₂, htype, id, s₃, hid, hemit⟩ := run₁
    obtain ⟨type, rfl, declared⟩ := typeWord_ok htype
    obtain ⟨t₂, htype₂, twin₂⟩ := twin.typeWord htype
    obtain ⟨hd₃, _, t₃, hid₃, ⟨rfl, hid'⟩, twin₃⟩ :=
      (mirrors_allocate (Entity.like_value hp.value)).twin_quiet hid twin₂
    have hd₁ : s₁.dictionary = s₃.dictionary := dictionary_emit hemit
    have grown := ((keeping_emitParams ps).of_ok run₂).steps
    rw [hd₁, hd₃] at grown
    have htype' : R type.word type.word := own _ type (grown.get? declared.known)
    have emits : Mirrors N R [] (fun _ _ => True) (emit .functionParameter [type.word, id.word])
        (emit .functionParameter [type.word, id.word]) :=
      mirrors_emit (.lead htype' (.lead hid' (.nil _)))
    obtain ⟨-, _, t₁, hemit₁, -, twin₁⟩ := emits.twin_quiet hemit twin₃
    obtain ⟨t', run', twin'⟩ := ih twin₁ run₂
    refine ⟨t', forM_cons_ok_iff.mpr ⟨t₁, ?_, run'⟩, twin'⟩
    rw [emitParam, hp.type]
    exact bind_eq_ok_iff.mpr ⟨_, t₂, htype₂, bind_eq_ok_iff.mpr ⟨id, t₃, hid₃, hemit₁⟩⟩

theorem header_mirrored (ht : task.Like N R task') {s s' t : Emission} (twin : Twin N R s t)
    (run : header task s = (.ok (), s'))
    (own : ∀ k id, s'.dictionary.get? k = some id → R id.word id.word) :
    ∃ t', header task' t = (.ok (), t') ∧ Twin N R s' t' := by
  have types : task'.method.params.map (·.type) = task.method.params.map (·.type) :=
    List.forall₂_eq_eq_eq ▸ List.rel_map (fun _ _ hp => hp.type) ht.method.params.flip
  simp only [header, bind_eq_ok_iff] at run ⊢
  rw [ht.method.returnType, types, predeclare_eq ht.method]
  obtain ⟨_, s₁, hexpect, _, s₂, hcheck, _, s₃, htype, signature, s₄, hsignature, _, s₅, hpredeclare, _, s₆,
    hemit, _, s₇, hparams, _, s₈, hname, _, s₉, hstage, hsize⟩ := run
  obtain ⟨type, rfl, declared⟩ := typeWord_ok htype
  have declared' := declare_ok (Dictionary.signatureId_declares _ _) hsignature
  obtain ⟨-, _, t₁, hexpect', -, twin₁⟩ := (mirrors_expect .header).twin_quiet hexpect twin
  obtain ⟨-, _, t₂, hcheck', -, twin₂⟩ := (mirrors_checkResult ht).twin_quiet hcheck twin₁
  obtain ⟨t₃, htype', twin₃⟩ := twin₂.typeWord htype
  obtain ⟨t₄, hsignature', twin₄⟩ := twin₃.declare hsignature
  obtain ⟨t₅, hpredeclare', twin₅⟩ := twin₄.declare hpredeclare
  -- What is declared so far is known to the end.
  have last : s'.dictionary = s₇.dictionary := by
    obtain ⟨-, rfl⟩ := emitName_ok hname
    obtain rfl := setStage_ok hstage
    obtain ⟨_, -, rfl⟩ := emitGroupSize_ok hsize
    rfl
  have grown : s₄.dictionary.Steps s'.dictionary := by
    obtain ⟨d, hd, rfl⟩ := onPart_ok_iff.mp hpredeclare
    have params := ((keeping_emitParams _).of_ok hparams).steps
    rw [dictionary_emit hemit] at params
    rw [last]
    exact ((predeclare_respects Dictionary.kept_steps _).of_ok hd).trans params
  have emits : Mirrors N R [] (fun _ _ => True)
      (emit .function [type.word, task.id.word, 0, signature.word])
      (emit .function [type.word, task'.id.word, 0, signature.word]) := by
    rw [ht.id]
    refine mirrors_emit (.lead ?_ (.lead ht.own (.lead rfl (.lead ?_ (.nil _)))))
    · exact own _ type ((declared'.steps.trans grown).get? declared.known)
    · exact own _ signature (grown.get? declared'.known)
  obtain ⟨-, _, t₆, hemit', -, twin₆⟩ := emits.twin_quiet hemit twin₅
  obtain ⟨t₇, hparams', twin₇⟩ := params_mirrored ht.method.params twin₆ hparams (last ▸ own)
  obtain ⟨-, _, t₈, hname', -, twin₈⟩ := (mirrors_emitName ht).twin_quiet hname twin₇
  obtain ⟨-, _, t₉, hstage', -, twin₉⟩ := (mirrors_setStage _).twin_quiet hstage twin₈
  obtain ⟨-, _, t', hsize', -, twin'⟩ := (mirrors_emitGroupSize ht).twin_quiet hsize twin₉
  exact ⟨t', ⟨_, t₁, hexpect', _, t₂, hcheck', _, t₃, htype', _, t₄, hsignature', _, t₅, hpredeclare', _, t₆,
    hemit', _, t₇, hparams', _, t₈, hname', _, t₉, hstage', hsize'⟩, twin'⟩

end SpirvKernel.Emission
