import SpirvKernel.Proofs.Emission.Block

/-!
# What functions become

The header of a function writes its first instruction and its parameters. The body then names all
blocks, writes their code in order, fills in what the phis lack and closes the function.
-/

namespace SpirvKernel.Emission

open Instruction Attempt

variable {t : Task} {s s' : Emission}

/-! ## Labels -/

/-- The state `s'` is `s` with a name for each of the blocks, taken one after the other. -/
structure Labelled (s : Emission) (bs : List Block) (s' : Emission) : Prop where
  same : s' = { s with work := { s.work with table := s'.work.table } }
  names : s.work.table.Within s'.work.table
  values : ∀ v, s'.work.table.get? (.value v) = s.work.table.get? (.value v)
  blocks : ∀ b id, s'.work.table.get? (.block b) = some id → s.work.table.get? (.block b) = some id ∨
    id.word ∈ wordsFrom s.work.table.range.next s'.work.table.range.next
  labels : bs.mapM (fun b => s'.work.table.label? b.id) =
    some (wordsFrom s.work.table.range.next s'.work.table.range.next)
  next : s'.work.table.range.next = s.work.table.range.next + bs.length
  stop : s'.work.table.range.stop = s.work.table.range.stop
  room : s.work.table.range.next ≤ s.work.table.range.stop →
    s'.work.table.range.next ≤ s'.work.table.range.stop

theorem Labelled.refl (s : Emission) : Labelled s [] s where
  same := rfl
  names := .refl _
  values _ := rfl
  blocks _ _ h := .inl h
  labels := by rw [wordsFrom_self]; rfl
  next := rfl
  stop := rfl
  room := id

theorem Labelled.cons {s₁ : Emission} {b : Block} {bs : List Block}
    (new : s.work.table.get? (.block b.id) = none)
    (room : s.work.table.range.next < s.work.table.range.stop)
    (hs : s₁ = s.taken.named (.block b.id) s.nextId) (h : Labelled s₁ bs s') :
    Labelled s (b :: bs) s' := by
  subst hs
  have hget : ∀ e, (s.taken.named (.block b.id) s.nextId).work.table.get? e =
      if e = .block b.id then some s.nextId else s.work.table.get? e :=
    get?_named s.taken (.block b.id) s.nextId
  have hnext : s'.work.table.range.next = s.work.table.range.next + 1 + bs.length := h.next
  have hwords : wordsFrom s.work.table.range.next s'.work.table.range.next = s.nextId.word ::
      wordsFrom (s.work.table.range.next + 1) s'.work.table.range.next := by
    rw [← wordsFrom_append (Nat.le_succ _) (by omega), wordsFrom_succ]
    rfl
  refine ⟨h.same, (within_named new _).trans h.names, fun v => ?_, fun c id hc => ?_, ?_, ?_, h.stop,
    fun _ => h.room room⟩
  · rw [h.values, hget, if_neg nofun]
  · rw [hwords, List.mem_cons]
    rcases h.blocks c id hc with hc | hc
    · rw [hget] at hc
      split at hc
      · cases hc; exact .inr (.inl rfl)
      · exact .inl hc
    · exact .inr (.inr hc)
  · rw [hwords]
    refine mapM_cons_some_iff.mpr ⟨_, _, h.names.label? ?_, h.labels, rfl⟩
    rw [IdTable.label?, hget, if_pos rfl]
    rfl
  · rw [hnext, List.length_cons]; omega

theorem allocateLabels_ok {bs : List Block} (h : bs.forM allocateLabel s = (.ok (), s')) :
    Labelled s bs s' := by
  induction bs generalizing s with
  | nil =>
    obtain rfl := forM_nil_ok_iff.mp h
    exact .refl s
  | cons b bs ih =>
    obtain ⟨s₁, hb, hrest⟩ := forM_cons_ok_iff.mp h
    simp only [allocateLabel, bind_eq_ok_iff, pure_ok_iff] at hb
    obtain ⟨_, _, hb, -, rfl⟩ := hb
    obtain ⟨new, room, -, hs⟩ := allocate_ok_iff.mp hb
    exact .cons new room hs (ih hrest)

/-! ## Resolution -/

def withFunctions (s : Emission) (is : List Instruction) : Emission :=
  { s with work := { s.work with output := s.work.output.set .functions is } }

theorem resolve_ok {p : Pending} (h : resolve p s = (.ok (), s')) :
    (s.work.table.value? p.value).isSome ∧
      s' = s.withFunctions (fill s.work.table s.work.output.functions p) := by
  simp only [resolve, bind_eq_ok_iff, operand_ok_iff, onWork, onPart_ok_iff, change_ok_iff] at h
  obtain ⟨x, _, ⟨hx, rfl⟩, _, rfl, rfl⟩ := h
  simp [hx, withFunctions, fill]

theorem resolves_ok {ps : List Pending} (h : ps.forM resolve s = (.ok (), s')) :
    (∀ p ∈ ps, (s.work.table.value? p.value).isSome) ∧
      s' = s.withFunctions (ps.foldl (fill s.work.table) s.work.output.functions) := by
  induction ps generalizing s with
  | nil =>
    obtain rfl := forM_nil_ok_iff.mp h
    exact ⟨by simp, rfl⟩
  | cons p ps ih =>
    obtain ⟨s₁, hp, hps⟩ := forM_cons_ok_iff.mp h
    obtain ⟨hsome, rfl⟩ := resolve_ok hp
    obtain ⟨hall, rfl⟩ := ih hps
    refine ⟨fun q hq => ?_, rfl⟩
    rcases List.mem_cons.mp hq with rfl | hq
    · exact hsome
    · exact hall q hq

theorem resolveAll_ok (h : resolveAll s = (.ok (), s')) :
    (∀ p ∈ s.work.pending, (s.work.table.value? p.value).isSome) ∧
      s' = { s with work := { s.work with
        output := s.work.output.set .functions
          (s.work.pending.foldl (fill s.work.table) s.work.output.functions)
        pending := [] } } := by
  simp only [resolveAll, bind_eq_ok_iff, state_ok_iff, onWork, onPart_ok_iff, change_ok_iff] at h
  obtain ⟨_, _, ⟨rfl, rfl⟩, _, _, ⟨_, rfl, rfl⟩, h⟩ := h
  exact resolves_ok h

/-! ## The body -/

/-- `s'` is `s` with a complete body written, the code `cs`, where `d` is the last dictionary. -/
structure Complete (t : Task) (d : Dictionary) (s : Emission) (cs : List Code) (s' : Emission) :
    Prop where
  steps : s.dictionary.Steps s'.dictionary
  target : s'.target = s.target
  stage : s'.work.stage = .afterBody
  output : s'.work.output =
    s.work.output.append .functions (cs.flatMap Code.toList ++ [.of .functionEnd []])
  codes : List.Forall₂ (Code.Of t d s'.work.table) t.method.blocks cs
  labels : cs.map Code.label = wordsFrom s.work.table.range.next
    (s.work.table.range.next + t.method.blocks.length)
  labelled : s.work.table.range.next + t.method.blocks.length ≤ s'.work.table.range.next
  blocks : ∀ b id, s'.work.table.get? (.block b) = some id →
    s.work.table.get? (.block b) = some id ∨ id.word ∈ cs.map Code.label
  results : (results (cs.flatMap Code.toList)).Perm
    (wordsFrom s.work.table.range.next s'.work.table.range.next)
  fits : ∀ i ∈ cs.flatMap Code.toList, i.Fits
  names : s.work.table.Within s'.work.table
  next : s.work.table.range.next ≤ s'.work.table.range.next
  stop : s'.work.table.range.stop = s.work.table.range.stop
  room : s.work.table.range.next ≤ s.work.table.range.stop →
    s'.work.table.range.next ≤ s'.work.table.range.stop
  sound : Sound t s → Sound t s'

theorem Sound.labelled {bs : List Block} (hs : Sound t s) (h : Labelled s bs s') : Sound t s' := by
  have hd : s'.dictionary = s.dictionary := by rw [h.same]
  have hf : s'.work.output = s.work.output := by rw [h.same]
  refine ⟨hd ▸ hs.dictionary, fun v id hv => ?_, by rw [hd, hf]; exact hs.ordered⟩
  rw [h.values] at hv
  refine (hs.values v id hv).mono ?_ ?_
  · rw [hd]; exact .refl _
  · rw [hf]; exact List.Subset.refl _

theorem results_map_final (T : IdTable) (ls : List Line) :
    results (ls.map (Line.final T)) = results (ls.map Line.draft) := by
  simp [results, List.filterMap_map]

theorem scoped_map_final {T : IdTable} {ls : List Line} {known : List Word} :
    Scoped known (ls.map (Line.final T)) ↔ Scoped known (ls.map Line.draft) := by
  induction ls generalizing known with
  | nil => rfl
  | cons l ls ih => simp [ih]

theorem expect_ok {call : Call} {u : Unit} (h : expect call s = (.ok u, s')) : s' = s := by
  simp only [expect, bind_eq_ok_iff, state_ok_iff, ite_ok_iff, pure_ok_iff, fail_ok_iff] at h
  obtain ⟨_, _, ⟨rfl, rfl⟩, ⟨-, -, rfl⟩ | ⟨-, ⟨⟩⟩⟩ := h
  rfl

theorem setStage_ok {stage : Stage} {u : Unit} (h : setStage stage s = (.ok u, s')) :
    s' = { s with work := { s.work with stage := stage } } := by
  simp only [setStage, onWork, onPart_ok_iff, change_ok_iff] at h
  obtain ⟨_, rfl, rfl⟩ := h
  rfl

theorem fits_final {T : IdTable} {l : Line} (h : l.draft.Fits) : (l.final T).Fits := by
  cases l with
  | plain i => exact h
  | phi type id incoming =>
    have hlen : (incoming.flatMap (Incoming.final T)).length =
        (incoming.flatMap Incoming.draft).length := by
      simp [List.length_flatMap, Incoming.final, Incoming.draft]
    simpa [Fits, size, Line.final, Line.draft, Instruction.of, hlen] using h

def closed (s : Emission) : Emission :=
  { s with work := { s.work with
      output := s.work.output.set .functions
        (s.work.pending.foldl (fill s.work.table) s.work.output.functions ++ [.of .functionEnd []])
      pending := []
      stage := .afterBody } }

@[simp] theorem table_closed (s : Emission) : s.closed.work.table = s.work.table := rfl

theorem Sound.closed {before : List Instruction} {ls : List Line} (hs : Sound t s)
    (hf : s.work.output.functions = before ++ ls.map Line.draft)
    (hf' : s.closed.work.output.functions =
      before ++ ls.map (Line.final s.work.table) ++ [.of .functionEnd []]) :
    Sound t s.closed := by
  refine ⟨hs.dictionary, fun v id hv => ?_, ?_⟩
  · obtain ⟨type, p, typing, hp, i, hi, typed⟩ := hs.values v id hv
    rw [hf, List.mem_append, List.mem_append] at hi
    refine ⟨type, p, typing, hp, ?_⟩
    rw [hf']
    rcases hi with hi | hi | hi
    · exact ⟨i, List.mem_append_left _ hi, typed⟩
    · exact ⟨i, by simp [hi], typed⟩
    · obtain ⟨l, hl, rfl⟩ := List.mem_map.mp hi
      refine ⟨l.final s.work.table, ?_, by rw [Line.typed?_final, typed]⟩
      simp only [List.mem_append, List.mem_map]
      exact .inr (.inl (.inr ⟨l, hl, rfl⟩))
  · have := hs.ordered
    rw [hf, scoped_append] at this
    rw [hf', scoped_append, scoped_append, scoped_map_final]
    exact ⟨this, by simp [uses, inSlot_of, Opcode.format, Format.read]⟩

theorem closed_complete {d : Dictionary} {s₁ s₂ : Emission}
    {F : Dictionary → IdTable → List Code → Prop} (hp : s.work.pending = [])
    (labelled : Labelled s t.method.blocks s₁) (codes : Codes t s₁ t.method.blocks F s₂)
    (hd : s₂.dictionary.Steps d)
    (hresolved : ∀ p ∈ s₂.work.pending, (s₂.work.table.value? p.value).isSome) :
    ∃ cs, Complete t d s cs s₂.closed ∧ F d s₂.work.table cs := by
  obtain ⟨ws, hws, ls, run, hcodes⟩ := codes
  obtain rfl : wordsFrom s.work.table.range.next s₁.work.table.range.next = ws :=
    Option.some.inj (labelled.labels.symm.trans hws)
  have hd₁ : s₁.dictionary = s.dictionary := by rw [labelled.same]
  have hp₁ : s₁.work.pending = [] := by rw [labelled.same]; exact hp
  have ho₁ : s₁.work.output = s.work.output := by rw [labelled.same]
  have advances := run.advances
  rw [advances.pending, hp₁, List.nil_append, ho₁] at hresolved
  -- The code of the blocks is known for any complete table; the table at the end is one.
  obtain ⟨cs, hlines, hlabels, hcs, hF⟩ := hcodes d s₂.work.table hd (.refl _)
    (Line.resolved_of_pending hresolved)
  have hfilled : s₂.work.pending.foldl (fill s₂.work.table) s₂.work.output.functions =
      s.work.output.functions ++ cs.flatMap Code.toList := by
    rw [advances.pending, hp₁, List.nil_append, advances.output, ho₁, functions_append,
      Line.foldl_fill_pending, hlines]
  have houtput : s₂.closed.work.output =
      s.work.output.append .functions (cs.flatMap Code.toList ++ [.of .functionEnd []]) := by
    rw [closed]
    dsimp only
    rw [hfilled, advances.output, ho₁]
    simp [Layout.append, Layout.set, Layout.get]
  refine ⟨cs, ⟨hd₁ ▸ advances.steps, ?_, rfl, houtput, hcs, ?_, ?_, ?_, ?_, ?_,
    labelled.names.trans advances.names, ?_, advances.stop.trans labelled.stop,
    fun room => advances.room (labelled.room room), fun sound => ?_⟩, hF⟩
  · rw [closed, advances.target, labelled.same]
  · rw [hlabels, labelled.next]
  · rw [← labelled.next]
    exact advances.next
  · intro b id hb
    rw [table_closed, advances.blocks] at hb
    rw [hlabels]
    exact labelled.blocks b id hb
  · have := run.results
    rw [← results_map_final s₂.work.table, hlines] at this
    refine this.trans ?_
    have hopening : ∀ ws : List Word, Instruction.results (ws.map Code.opening) = ws := by
      intro ws
      rw [Instruction.results, List.filterMap_map]
      exact List.filterMap_some
    rw [hopening, wordsFrom_append (by rw [labelled.next]; omega) advances.next, table_closed]
  · rw [← hlines]
    intro i hi
    obtain ⟨l, hl, rfl⟩ := List.mem_map.mp hi
    exact fits_final (run.fits l hl)
  · refine Nat.le_trans ?_ advances.next
    rw [labelled.next]
    exact Nat.le_add_right _ _
  · have sound₂ : Sound t s₂ := run.sound (sound.labelled labelled)
    have hfunctions : s₂.work.output.functions = s.work.output.functions ++ ls.map Line.draft := by
      rw [advances.output, ho₁, functions_append]
    refine sound₂.closed hfunctions ?_
    rw [houtput, functions_append, ← hlines, List.append_assoc]

/-- A body names its blocks, writes their code and closes the function. -/
theorem body_closed (h : body t s = (.ok (), s')) :
    ∃ (s₁ s₂ : Emission) (x : Memory), s' = s₂.closed ∧ Labelled s t.method.blocks s₁ ∧
      Codes t s₁ t.method.blocks (fun d T cs => x.Tops d T t.storage cs) s₂ ∧ AddsGroups s x.groups s₂ ∧
      ∀ p ∈ s₂.work.pending, (s₂.work.table.value? p.value).isSome := by
  simp only [body, bind_eq_ok_iff] at h
  obtain ⟨_, _, hexpect, h⟩ := h
  obtain rfl := expect_ok hexpect
  cases hb : t.method.blocks with
  | nil => simp [hb] at h
  | cons entry bs =>
    simp only [hb, bind_eq_ok_iff] at h
    obtain ⟨_, s₁, hlabels, _, s₂, hentry, _, s₃, hrest, _, s₄, hresolve, _, s₅, hend, hstage⟩ := h
    have named := (made_forM made_allocateLabel _).keepsGroups.of_ok hlabels
    have others := (made_emitBlocks fun _ _ _ _ r hr =>
      groupless_perform r (keyed_valueRequests hr)).keepsGroups.of_ok hrest
    obtain ⟨x, adds, codes⟩ := Codes.cons (by simp [hb]) (fun _ _ => emitStorage_lays) hentry
      (emitBlocks_codes (fun b hb' => by simp [hb, hb']) hrest)
    obtain ⟨hresolved, rfl⟩ := resolveAll_ok hresolve
    obtain ⟨-, rfl⟩ := emit_ok_iff.mp hend
    obtain rfl := setStage_ok hstage
    refine ⟨s₁, s₃, x, ?_, allocateLabels_ok hlabels, codes, (named.addsGroups adds).keepsGroups others,
      hresolved⟩
    simp [closed, written, Line.draft, Line.pending, Line.missing, Layout.append, Layout.set,
      Layout.get, Call.next]

theorem body_laid {d : Dictionary} (hp : s.work.pending = [])
    (h : body t s = (.ok (), s')) (hd : s'.dictionary.Steps d) :
    ∃ cs, Complete t d s cs s' ∧
      ∃ x : Memory, AddsGroups s x.groups s' ∧ x.Tops d s'.work.table t.storage cs := by
  obtain ⟨s₁, s₂, x, rfl, labelled, codes, adds, hresolved⟩ := body_closed h
  obtain ⟨cs, complete, memory⟩ := closed_complete hp labelled codes hd hresolved
  exact ⟨cs, complete, x, adds, memory⟩

theorem body_ok {d : Dictionary} (hp : s.work.pending = [])
    (h : body t s = (.ok (), s')) (hd : s'.dictionary.Steps d) : ∃ cs, Complete t d s cs s' := by
  obtain ⟨cs, complete, -⟩ := body_laid hp h hd
  exact ⟨cs, complete⟩

/-! ## The header -/

theorem emitParam_run {p : Param} (hp : p ∈ t.method.params)
    (h : emitParam p s = (.ok (), s')) :
    ∃ ws, Run t s [] [.plain (.of .functionParameter ws)] s' ∧
      ∀ wide, (Instruction.of .functionParameter ws).mentions wide = [] := by
  simp only [emitParam, bind_eq_ok_iff] at h
  obtain ⟨_, s₁, htype, id, s₂, hid, h⟩ := h
  obtain ⟨type, rfl, declared⟩ := typeWord_ok htype
  have typing : (p.value, p.type) ∈ t.typings :=
    List.mem_append_left _ (List.mem_append_left _ (List.mem_map_of_mem hp))
  have run := define_run Opcode.reads_functionParameter typing declared.known (by simp) hid h
  exact ⟨_, declared.run.trans run, fun _ => rfl⟩

theorem emitParams_run {ps : List Param} {u : Unit} (hps : ∀ p ∈ ps, p ∈ t.method.params)
    (h : ps.forM emitParam s = (.ok u, s')) :
    ∃ wss : List (List Word), wss.length = ps.length ∧
      Run t s [] ((wss.map (Instruction.of .functionParameter)).map .plain) s' ∧
      Quiet (wss.map (Instruction.of .functionParameter)) := by
  induction ps generalizing s with
  | nil =>
    obtain rfl := forM_nil_ok_iff.mp h
    exact ⟨[], rfl, .refl, quiet_nil⟩
  | cons p ps ih =>
    obtain ⟨s₁, hp, h⟩ := forM_cons_ok_iff.mp h
    obtain ⟨ws, run, quiet⟩ := emitParam_run (hps p List.mem_cons_self) hp
    obtain ⟨wss, hlength, run', quiet'⟩ := ih (fun q hq => hps q (List.mem_cons_of_mem p hq)) h
    exact ⟨ws :: wss, by simp [hlength], run.trans run', (quiet_singleton quiet).append quiet'⟩

/-- An instruction about the function as a whole. -/
structure Note (t : Task) (op : Opcode) (i : Instruction) : Prop where
  opcode : i.opcode? = some op
  fits : i.Fits
  result : i.result? = none
  uses : i.uses = []
  mentions : ∀ wide, ∀ w ∈ i.mentions wide, w = t.id.word

def noted (s : Emission) (sec : Section) (notes : List Instruction) : Emission :=
  { s with work := { s.work with output := s.work.output.append sec notes } }

theorem append_nil (l : Layout Instruction) (sec : Section) : l.append sec [] = l := by
  ext1 sec'
  by_cases h : sec' = sec <;> simp [h]

/-- The name of the function for the debugger, if functions carry their names. -/
def nameNotes (t : Task) : List Instruction :=
  if t.frame.debugNames then [.of .name (t.id.word :: Literal.encode t.method.name)] else []

theorem emitName_ok {u : Unit} (h : emitName t s = (.ok u, s')) :
    (∀ i ∈ nameNotes t, Note t .name i) ∧ s' = s.noted .debug (nameNotes t) := by
  unfold emitName at h
  unfold nameNotes
  split at h
  · rename_i hnames
    obtain ⟨fits, rfl⟩ := emitTo_ok_iff.mp h
    rw [if_pos hnames]
    refine ⟨fun i hi => ?_, rfl⟩
    rw [List.mem_singleton.mp hi]
    refine ⟨opcode?_of _ _, fits, ?_, ?_, fun wide w hw => ?_⟩
    · simp [result?, inSlot_of, Opcode.format, Format.read]
    · simp [uses, inSlot_of, Opcode.format, Format.read]
    · simpa [mentions, inSlot_of, Opcode.format, Format.read] using hw
  · rename_i hnames
    obtain ⟨-, rfl⟩ := pure_ok_iff.mp h
    rw [if_neg hnames]
    exact ⟨by simp, by rw [noted, append_nil]⟩

theorem emitGroupSize_ok {u : Unit} (h : emitGroupSize t s = (.ok u, s')) :
    ∃ notes, (∀ i ∈ notes, Note t .executionMode i) ∧ s' = s.noted .executionModes notes := by
  cases hsize : t.entry.bind EntryPoint.groupSize with
  | some size =>
    simp only [emitGroupSize, hsize, emitTo_ok_iff] at h
    obtain ⟨fits, rfl⟩ := h
    refine ⟨_, fun i hi => ?_, rfl⟩
    rw [List.mem_singleton.mp hi]
    refine ⟨opcode?_of _ _, fits, rfl, rfl, fun wide w hw => ?_⟩
    simpa [mentions, inSlot_of, Opcode.format, Format.read] using hw
  | none =>
    simp only [emitGroupSize, hsize, pure_ok_iff] at h
    obtain ⟨-, rfl⟩ := h
    exact ⟨[], by simp, by rw [noted, append_nil]⟩

def opening (t : Task) (type signature : Id) : Instruction :=
  .of .function [type.word, t.id.word, 0, signature.word]

/-- `s'` is `s` with `is` written in the function, and notes about it elsewhere. -/
structure HeaderWritten (t : Task) (s : Emission) (is names modes : List Instruction) (s' : Emission) :
    Prop where
  steps : s.dictionary.Steps s'.dictionary
  target : s'.target = s.target
  stage : s'.work.stage = .afterHeader
  output : s'.work.output =
    ((s.work.output.append .functions is).append .debug names).append .executionModes modes
  pending : s'.work.pending = s.work.pending
  head : ∃ type signature, ∃ wss : List (List Word), wss.length = t.method.params.length ∧
    is = opening t type signature :: wss.map (Instruction.of .functionParameter)
  quiet : Quiet is
  named : names = nameNotes t
  names : ∀ i ∈ names, Note t .name i
  modes : ∀ i ∈ modes, Note t .executionMode i
  results : (results is).Perm
    (t.id.word :: wordsFrom s.work.table.range.next s'.work.table.range.next)
  fits : ∀ i ∈ is, i.Fits
  within : s.work.table.Within s'.work.table
  blocks : ∀ b, s'.work.table.get? (.block b) = s.work.table.get? (.block b)
  next : s.work.table.range.next ≤ s'.work.table.range.next
  stop : s'.work.table.range.stop = s.work.table.range.stop
  room : s.work.table.range.next ≤ s.work.table.range.stop →
    s'.work.table.range.next ≤ s'.work.table.range.stop
  sound : Sound t s → Sound t s'

theorem signature_run {type signature : Id} {s₁ : Emission} {u u' : Unit}
    (htype : Available t s type.word) (hsignature : Available t s signature.word)
    (hf : emit .function [type.word, t.id.word, 0, signature.word] s = (.ok u, s₁))
    (hparams : t.method.params.forM emitParam s₁ = (.ok u', s')) :
    ∃ wss : List (List Word), wss.length = t.method.params.length ∧
      Run t s [opening t type signature] ((opening t type signature ::
        wss.map (Instruction.of .functionParameter)).map .plain) s' ∧
      Quiet (opening t type signature :: wss.map (Instruction.of .functionParameter)) := by
  obtain ⟨fits, rfl⟩ := emit_ok_iff.mp hf
  have first : Step t s [opening t type signature] [.plain (opening t type signature)]
      (s.written (.plain (opening t type signature))) := by
    refine .opening rfl fits ?_
    simpa [opening, uses, inSlot_of, Opcode.format, Format.read] using ⟨htype, hsignature⟩
  obtain ⟨wss, hlength, run, hquiet⟩ := emitParams_run (fun _ => id) hparams
  exact ⟨wss, hlength, first.run.trans run, (quiet_singleton fun _ => rfl).append hquiet⟩

theorem checkResult_ok {u : Unit} (h : checkResult t s = (.ok u, s')) : s' = s := by
  simp only [checkResult, ite_ok_iff, fail_ok_iff, pure_ok_iff] at h
  obtain ⟨-, ⟨⟩⟩ | ⟨-, -, rfl⟩ := h
  rfl

theorem pending_plain (n : Nat) (is : List Instruction) : Line.pending n (is.map .plain) = [] := by
  induction is generalizing n with
  | nil => rfl
  | cons i is ih => simp [Line.pending, Line.missing, ih]

theorem map_draft_plain (is : List Instruction) : (is.map Line.plain).map Line.draft = is := by
  rw [List.map_map]
  exact List.map_id is

theorem header_ok (h : header t s = (.ok (), s')) :
    ∃ is names modes, HeaderWritten t s is names modes s' := by
  simp only [header, bind_eq_ok_iff] at h
  obtain ⟨_, _, h₁, _, _, h₂, _, s₁, h₃, signature, s₂, h₄, _, s₃, h₅, _, s₄, hf, _, s₅, hparams, _, s₆,
    hname, _, s₇, hstage, hsize⟩ := h
  obtain rfl := expect_ok h₁
  obtain rfl := checkResult_ok h₂
  obtain ⟨type, rfl, declared⟩ := typeWord_ok h₃
  have declared' := declare_ok (Dictionary.signatureId_declares _ _) h₄
  obtain ⟨d, hd, rfl⟩ := onPart_ok_iff.mp h₅
  have predeclared : Run t s₂ [] [] { s₂ with dictionary := d } :=
    (Step.declare ((predeclare_respects Dictionary.kept_steps _).of_ok hd)).run
  have htype := ((declared.available (t := t)).mono declared'.run).mono predeclared
  have hsignature := (declared'.available (t := t)).mono predeclared
  obtain ⟨wss, hlength, run, hquiet⟩ := signature_run htype hsignature hf hparams
  have whole := ((declared.run.trans declared'.run).trans predeclared).trans run
  simp only [List.append_nil, List.nil_append] at whole
  have advances := whole.advances
  obtain ⟨hnames, rfl⟩ := emitName_ok hname
  obtain rfl := setStage_ok hstage
  obtain ⟨modes, hmodes, rfl⟩ := emitGroupSize_ok hsize
  refine ⟨_, _, modes, advances.steps, advances.target, rfl, ?_, ?_,
    ⟨type, signature, wss, hlength, rfl⟩, hquiet, rfl, hnames, hmodes, ?_, ?_, advances.names,
    advances.blocks, advances.next, advances.stop, advances.room, fun sound => ?_⟩
  · simp only [noted, advances.output, map_draft_plain]
  · simp only [noted, advances.pending, pending_plain, List.append_nil]
  · have := whole.results
    rwa [map_draft_plain] at this
  · intro i hi
    exact whole.fits (.plain i) (List.mem_map_of_mem hi)
  · have := whole.sound sound
    exact ⟨this.dictionary, this.values, this.ordered⟩

end SpirvKernel.Emission
