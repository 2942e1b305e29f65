import SpirvKernel.Proofs.Emission.Lowering
import SpirvKernel.Proofs.Emission.Requests
import SpirvKernel.Proofs.Naming

/-!
# Emission of methods that are alike

The work on two methods is alike if it is the same but for names and identifiers that match. A step of
the one emission is mirrored by the same step of the other, which succeeds if the dictionary answers
the same requests.
-/

namespace SpirvKernel

open Attempt

/-! ## Instructions -/

/-- Operands of this kind match if they are equal as numbers or related as identifiers. -/
def Slot.Matches (R : Word → Word → Prop) : Slot → Word → Word → Prop
  | .literal => Eq
  | .result | .use | .mention => R

/-- What follows the leading operands. The cases of a switch count as numbers. -/
def Opcode.rest (op : Opcode) : Slot := (op.format false).trailing.head?.getD .literal

section

variable {R : Word → Word → Prop}

inductive Aligned (R : Word → Word → Prop) (rest : Slot) : List Slot → List Word → List Word → Prop
  | nil (slots : List Slot) : Aligned R rest slots [] []
  | lead {slot : Slot} {slots : List Slot} {a b : Word} {as bs : List Word}
      (head : slot.Matches R a b) (tail : Aligned R rest slots as bs) :
      Aligned R rest (slot :: slots) (a :: as) (b :: bs)
  | rest {a b : Word} {as bs : List Word} (head : rest.Matches R a b)
      (tail : Aligned R rest [] as bs) : Aligned R rest [] (a :: as) (b :: bs)

/-- The same instruction, but for identifiers that match. -/
inductive Instruction.Alike (R : Word → Word → Prop) : Instruction → Instruction → Prop
  | of {op : Opcode} {as bs : List Word}
      (operands : Aligned R op.rest (op.format false).leading as bs) : Alike R (.of op as) (.of op bs)

theorem Aligned.length_eq {rest : Slot} {slots : List Slot} {as bs : List Word}
    (h : Aligned R rest slots as bs) : as.length = bs.length := by
  induction h with
  | nil => rfl
  | lead _ _ ih | rest _ _ ih => rw [List.length_cons, List.length_cons, ih]

theorem aligned_rest {rest : Slot} {as bs : List Word} (h : List.Forall₂ (rest.Matches R) as bs) :
    Aligned R rest [] as bs := by
  induction h with
  | nil => exact .nil []
  | cons head _ ih => exact .rest head ih

theorem Slot.Matches.mono {R' : Word → Word → Prop} (hR : ∀ a b, R a b → R' a b) {slot : Slot} {a b : Word}
    (h : slot.Matches R a b) : slot.Matches R' a b := by
  cases slot with
  | literal => exact h
  | result | use | mention => exact hR a b h

theorem Aligned.mono {R' : Word → Word → Prop} (hR : ∀ a b, R a b → R' a b) {rest : Slot}
    {slots : List Slot} {as bs : List Word} (h : Aligned R rest slots as bs) :
    Aligned R' rest slots as bs := by
  induction h with
  | nil slots => exact .nil slots
  | lead head _ ih => exact .lead (head.mono hR) ih
  | rest head _ ih => exact .rest (head.mono hR) ih

theorem Instruction.Alike.mono {R' : Word → Word → Prop} (hR : ∀ a b, R a b → R' a b) {i j : Instruction}
    (h : i.Alike R j) : i.Alike R' j := by
  obtain ⟨operands⟩ := h
  exact .of (operands.mono hR)

/-! ### Results -/

theorem Opcode.result_not_mem_trailing (op : Opcode) : .result ∉ (op.format false).trailing := by
  cases op <;> decide

theorem Aligned.results {rest : Slot} {slots : List Slot} {as bs : List Word}
    (h : Aligned R rest slots as bs) :
    List.Forall₂ R ((slots.zip as).filterMap fun (s, w) => if s = .result then some w else none)
      ((slots.zip bs).filterMap fun (s, w) => if s = .result then some w else none) := by
  induction h with
  | nil slots => simp
  | rest => exact .nil
  | @lead slot slots a b as bs head _ ih =>
    rw [List.zip_cons_cons, List.zip_cons_cons]
    by_cases hs : slot = .result
    · subst hs
      exact .cons head ih
    · simpa [hs] using ih

theorem Instruction.Alike.result? {i j : Instruction} (h : i.Alike R j) :
    Option.Rel R i.result? j.result? := by
  obtain @⟨op, as, bs, operands⟩ := h
  have results := operands.results
  have head (ws : List Word) : (Instruction.of op ws).result? =
      (((op.format false).leading.zip ws).filterMap
        fun (s, w) => if s = .result then some w else none).head? := by
    rw [Instruction.result?, Instruction.inSlot_of, Format.read, List.filterMap_append,
      Instruction.filterMap_slot_cycle op.result_not_mem_trailing, List.append_nil]
  rw [head, head]
  generalize (List.zip _ as).filterMap _ = xs at results
  generalize (List.zip _ bs).filterMap _ = ys at results
  cases results with
  | nil => exact .none
  | cons h _ => exact .some h

theorem results_alike {is js : List Instruction} (h : List.Forall₂ (Instruction.Alike R) is js) :
    List.Forall₂ R (Instruction.results is) (Instruction.results js) :=
  List.rel_filterMap (fun _ _ h => h.result?) h

theorem aligned_computation {op : Opcode} (h : op.format false = .computation) {type type' id : Word}
    {as bs : List Word} (htype : R type type') (hid : R id id) (has : List.Forall₂ R as bs) :
    Aligned R op.rest (op.format false).leading (type :: id :: as) (type' :: id :: bs) := by
  rw [Opcode.rest, h]
  exact .lead htype (.lead hid (aligned_rest has))

end

/-! ## Work -/

section

variable (N : Naming) (R : Word → Word → Prop)

def Entity.Like : Entity → Entity → Prop
  | .value v, .value v' => N.value v v'
  | .block b, .block b' => N.block b b'
  | _, _ => False

/-- Blocks have the same identifiers in both methods. -/
def Entity.Same : Entity → Id → Id → Prop
  | .value _, a, b => R a.word b.word
  | .block _, a, b => b = a ∧ R a.word b.word

structure Pending.Like (p q : Pending) : Prop where
  instruction : q.instruction = p.instruction
  operand : q.operand = p.operand
  value : N.value p.value q.value

def Work.IsPhi (w : Work) (p : Pending) : Prop :=
  ∃ ws, w.output.functions[p.instruction]? = some (.of .phi ws)

structure Work.Like (w w' : Work) : Prop where
  range : w'.table.range = w.table.range
  entries : List.Forall₂ (fun x y => Entity.Like N x.1 y.1 ∧ Entity.Same R x.1 x.2 y.2)
    w.table.entries w'.table.entries
  output : ∀ sec, List.Forall₂ (Instruction.Alike R) (w.output.get sec) (w'.output.get sec)
  stage : w'.stage = w.stage
  pending : List.Forall₂ (Pending.Like N) w.pending w'.pending
  phis : ∀ p ∈ w.pending, w.IsPhi p
  /-- The range of the method is the same for both. -/
  own : ∀ n < w.table.range.stop, R (Id.word ⟨n⟩) (Id.word ⟨n⟩)
  zero : R 0 0

structure Emission.Like (s t : Emission) : Prop where
  target : t.target = s.target
  work : s.work.Like N R t.work

end

variable {N : Naming} {R : Word → Word → Prop}

theorem Entity.like_value {v v' : ValueId} (h : N.value v v') : Entity.Like N (.value v) (.value v') := h

theorem Entity.like_block {b b' : BlockId} (h : N.block b b') : Entity.Like N (.block b) (.block b') := h

theorem Entity.oneToOne : OneToOne (Entity.Like N) := by
  intro a a' b b' h h'
  cases a <;> cases b <;> cases a' <;> cases b' <;> first | cases h | cases h' | skip
  · simpa using N.values _ _ _ _ h h'
  · simp
  · simp
  · simpa using N.blocks _ _ _ _ h h'

theorem Entity.Same.mono {R' : Word → Word → Prop} (hR : ∀ a b, R a b → R' a b) {e : Entity} {a b : Id}
    (h : e.Same R a b) : e.Same R' a b := by
  cases e with
  | value => exact hR _ _ h
  | block => exact ⟨h.1, hR _ _ h.2⟩

theorem Work.Like.get? {w w' : Work} (h : w.Like N R w') {e e' : Entity} (he : e.Like N e') :
    Option.Rel (e.Same R) (w.table.get? e) (w'.table.get? e') :=
  lookup_of_forall₂ Entity.oneToOne h.entries he

theorem Work.Like.mono {R' : Word → Word → Prop} (hR : ∀ a b, R a b → R' a b) {w w' : Work}
    (h : w.Like N R w') : w.Like N R' w' where
  range := h.range
  entries := h.entries.imp fun _ _ hxy => ⟨hxy.1, hxy.2.mono hR⟩
  output := fun sec => (h.output sec).imp fun _ _ => Instruction.Alike.mono hR
  stage := h.stage
  pending := h.pending
  phis := h.phis
  own := fun n hn => hR _ _ (h.own n hn)
  zero := hR _ _ h.zero

section

variable {w w' : Work}

theorem Work.Like.get?_eq_none (h : w.Like N R w') {e e' : Entity} (he : e.Like N e')
    (hnone : w.table.get? e = none) : w'.table.get? e' = none := by
  have found := h.get? he
  rw [hnone] at found
  cases h' : w'.table.get? e' with
  | none => rfl
  | some id =>
    rw [h'] at found
    cases found

theorem Work.Like.get?_eq_some (h : w.Like N R w') {e e' : Entity} (he : e.Like N e') {a : Id}
    (ha : w.table.get? e = some a) : ∃ b, w'.table.get? e' = some b ∧ e.Same R a b := by
  have found := h.get? he
  rw [ha] at found
  cases h' : w'.table.get? e' with
  | none =>
    rw [h'] at found
    cases found
  | some b =>
    rw [h'] at found
    cases found with
    | some same => exact ⟨b, rfl, same⟩

theorem Work.Like.value? (h : w.Like N R w') {v v' : ValueId} (hv : N.value v v') {x : Word}
    (hx : w.table.value? v = some x) : ∃ y, w'.table.value? v' = some y ∧ R x y := by
  obtain ⟨a, ha, rfl⟩ := Option.map_eq_some_iff.mp hx
  obtain ⟨b, hb, same⟩ := h.get?_eq_some (Entity.like_value hv) ha
  exact ⟨b.word, Option.map_eq_some_iff.mpr ⟨b, hb, rfl⟩, same⟩

theorem Work.Like.label? (h : w.Like N R w') {b b' : BlockId} (hb : N.block b b') {x : Word}
    (hx : w.table.label? b = some x) : w'.table.label? b' = some x ∧ R x x := by
  obtain ⟨a, ha, rfl⟩ := Option.map_eq_some_iff.mp hx
  obtain ⟨a', ha', rfl, own⟩ := h.get?_eq_some (Entity.like_block hb) ha
  exact ⟨Option.map_eq_some_iff.mpr ⟨_, ha', rfl⟩, own⟩

end

namespace Emission

/-! ## Mirrored steps -/

/-- The dictionary answers requests one after the other. -/
def Answers (rs : List Dictionary.Request) (d : Dictionary) (ids : List Id) (d' : Dictionary) : Prop :=
  rs.mapM Dictionary.perform d = (.ok ids, d')

variable {α β γ δ : Type} {rs rs₁ rs₂ : List Dictionary.Request} {P : α → β → Prop} {Q : γ → δ → Prop}

/-- Where `x` succeeds it makes the requests `rs`. Where these are answered alike, `y` succeeds alike. -/
def Mirrors (N : Naming) (R : Word → Word → Prop) (rs : List Dictionary.Request) (P : α → β → Prop)
    (x : Emit α) (y : Emit β) : Prop :=
  ∀ s a s' t, x s = (.ok a, s') → Like N R s t →
    ∃ ids, Answers rs s.dictionary ids s'.dictionary ∧ (∃ b t', P a b ∧ Like N R s' t') ∧
      ∀ ids' d', Answers rs t.dictionary ids' d' →
        List.Forall₂ (fun i j => R i.word j.word) ids ids' →
          ∃ b t', y t = (.ok b, t') ∧ t'.dictionary = d' ∧ P a b ∧ Like N R s' t'

theorem mirrors_of {x : Emit α} {y : Emit β} (h : ∀ s a s' t, x s = (.ok a, s') → Like N R s t →
    s'.dictionary = s.dictionary ∧
      ∃ b t', y t = (.ok b, t') ∧ t'.dictionary = t.dictionary ∧ P a b ∧ Like N R s' t') :
    Mirrors N R [] P x y := by
  intro s a s' t run like
  obtain ⟨hd, b, t', run', hd', hP, like'⟩ := h s a s' t run like
  refine ⟨[], by rw [hd]; rfl, ⟨b, t', hP, like'⟩, fun ids' d' answers _ => ?_⟩
  obtain ⟨-, rfl⟩ := mapM_nil_ok_iff.mp answers
  exact ⟨b, t', run', hd', hP, like'⟩

theorem mirrors_pure {a : α} {b : β} (h : P a b) : Mirrors N R [] P (pure a) (pure b) := by
  refine mirrors_of fun s a' s' t run like => ?_
  obtain ⟨rfl, rfl⟩ := pure_ok_iff.mp run
  exact ⟨rfl, b, t, rfl, rfl, h, like⟩

theorem mirrors_fail {e : Fault} {y : Emit β} : Mirrors N R rs P (fail e : Emit α) y := by
  intro s a s' t run
  cases run

theorem mirrors_state : Mirrors N R [] (Like N R) state state := by
  refine mirrors_of fun s a s' t run like => ?_
  obtain ⟨rfl, rfl⟩ := state_ok_iff.mp run
  exact ⟨rfl, t, t, rfl, rfl, like, like⟩

theorem mirrors_ofExcept (r : Except Fault α) :
    Mirrors N R [] (fun a b => a = b ∧ r = .ok a) (ofExcept r) (ofExcept r) := by
  cases r with
  | error e => exact mirrors_fail
  | ok a => exact mirrors_pure ⟨rfl, rfl⟩

theorem Mirrors.bind {x : Emit α} {y : Emit β} {f : α → Emit γ} {g : β → Emit δ}
    (hx : Mirrors N R rs₁ P x y) (hf : ∀ a b, P a b → Mirrors N R rs₂ Q (f a) (g b)) :
    Mirrors N R (rs₁ ++ rs₂) Q (x >>= f) (y >>= g) := by
  intro s c s' t run like
  obtain ⟨a, s₁, run₁, run₂⟩ := bind_eq_ok_iff.mp run
  obtain ⟨ids₁, answers₁, ⟨b₀, t₀, hP₀, like₀⟩, mirror₁⟩ := hx s a s₁ t run₁ like
  obtain ⟨ids₂, answers₂, exists₂, -⟩ := hf a b₀ hP₀ s₁ c s' t₀ run₂ like₀
  refine ⟨ids₁ ++ ids₂, mapM_append_ok_iff.mpr ⟨ids₁, ids₂, _, answers₁, answers₂, rfl⟩, exists₂, ?_⟩
  intro ids' d' answers related
  obtain ⟨ids₁', ids₂', d₁, answers₁', answers₂', rfl⟩ := mapM_append_ok_iff.mp answers
  have hlength : ids₁.length = ids₁'.length :=
    (length_of_mapM_ok answers₁).trans (length_of_mapM_ok answers₁').symm
  obtain ⟨related₁, related₂⟩ := forall₂_append hlength related
  obtain ⟨b, t₁, run₁', rfl, hP, like₁⟩ := mirror₁ ids₁' d₁ answers₁' related₁
  obtain ⟨ids₂'', answers₂'', -, mirror₂⟩ := hf a b hP s₁ c s' t₁ run₂ like₁
  obtain rfl : ids₂ = ids₂'' := by
    have same := answers₂.symm.trans answers₂''
    simpa using same
  obtain ⟨d, t', run₂', hd', hQ, like'⟩ := mirror₂ ids₂' d' answers₂' related₂
  exact ⟨d, t', bind_eq_ok_iff.mpr ⟨b, t₁, run₁', run₂'⟩, hd', hQ, like'⟩

theorem Mirrors.first {x : Emit α} {y : Emit β} {f : α → Emit γ} {g : β → Emit δ}
    (hx : Mirrors N R [] P x y) (hf : ∀ a b, P a b → Mirrors N R rs Q (f a) (g b)) :
    Mirrors N R rs Q (x >>= f) (y >>= g) :=
  hx.bind hf

theorem Mirrors.last {x : Emit α} {y : Emit β} {f : α → Emit γ} {g : β → Emit δ}
    (hx : Mirrors N R rs P x y) (hf : ∀ a b, P a b → Mirrors N R [] Q (f a) (g b)) :
    Mirrors N R rs Q (x >>= f) (y >>= g) := by
  have h := hx.bind hf
  rwa [List.append_nil] at h

theorem Mirrors.map {x : Emit α} {y : Emit β} {f : α → γ} {g : β → δ} (hx : Mirrors N R rs P x y)
    (hQ : ∀ a b, P a b → Q (f a) (g b)) : Mirrors N R rs Q (f <$> x) (g <$> y) := by
  rw [← bind_pure_comp, ← bind_pure_comp]
  exact hx.last fun a b hab => mirrors_pure (hQ a b hab)

theorem mirrors_forM {κ κ' : Type} {K : κ → κ' → Prop} {f : κ → Emit Unit} {g : κ' → Emit Unit}
    {requests : κ → List Dictionary.Request} {ks : List κ} {ks' : List κ'}
    (hks : List.Forall₂ K ks ks')
    (h : ∀ k k', K k k' → Mirrors N R (requests k) (fun _ _ => True) (f k) (g k')) :
    Mirrors N R (ks.flatMap requests) (fun _ _ => True) (ks.forM f) (ks'.forM g) := by
  induction hks with
  | nil => exact mirrors_pure trivial
  | cons hk _ ih => exact (h _ _ hk).bind fun _ _ _ => ih

theorem mirrors_mapM {κ κ' ι : Type} {K : κ → κ' → Prop} {f : κ → Emit α} {g : κ' → Emit β}
    {requests : κ → List Dictionary.Request} {view : α → ι} {want : κ → ι} {ks : List κ} {ks' : List κ'}
    (hks : List.Forall₂ K ks ks') (h : ∀ k k', K k k' →
      Mirrors N R (requests k) (fun a b => P a b ∧ view a = want k) (f k) (g k')) :
    Mirrors N R (ks.flatMap requests)
      (fun as bs => List.Forall₂ P as bs ∧ as.map view = ks.map want) (ks.mapM f) (ks'.mapM g) := by
  induction hks with
  | nil => exact mirrors_pure ⟨.nil, rfl⟩
  | cons hk _ ih =>
    rw [List.mapM_cons, List.mapM_cons]
    refine (h _ _ hk).bind fun a b hab => ih.last fun as bs habs => mirrors_pure ?_
    exact ⟨.cons hab.1 habs.1, by rw [List.map_cons, List.map_cons, hab.2, habs.2]⟩

/-! ## Primitives -/

section

variable {s t : Emission}

theorem isPhi_append {w : Work} {p : Pending} (h : w.IsPhi p) (sec : Section) (is : List Instruction) :
    Work.IsPhi { w with output := w.output.append sec is } p := by
  obtain ⟨ws, hws⟩ := h
  refine ⟨ws, ?_⟩
  cases sec with
  | functions => exact List.getElem?_append_left (List.getElem?_eq_some_iff.mp hws).1 ▸ hws
  | _ => exact hws

theorem Like.taken (h : Like N R s t) : Like N R s.taken t.taken where
  target := h.target
  work := { h.work with range := by rw [Emission.taken, Emission.taken, h.work.range] }

theorem Like.named (h : Like N R s t) {e e' : Entity} (he : e.Like N e') {a b : Id} (hab : e.Same R a b) :
    Like N R (s.named e a) (t.named e' b) where
  target := h.target
  work := { h.work with entries := .cons ⟨he, hab⟩ h.work.entries }

theorem Like.nextId (h : Like N R s t) : t.nextId = s.nextId := by
  rw [Emission.nextId, Emission.nextId, h.work.range]

theorem Like.appended (h : Like N R s t) (sec : Section) {i j : Instruction} (hij : i.Alike R j) :
    Like N R { s with work := { s.work with output := s.work.output.append sec [i] } }
      { t with work := { t.work with output := t.work.output.append sec [j] } } where
  target := h.target
  work := { h.work with
    output := fun sec' => by
      simp only [Layout.get_append]
      split
      · exact List.rel_append (h.work.output sec') (.cons hij .nil)
      · exact h.work.output sec'
    phis := fun p hp => isPhi_append (h.work.phis p hp) sec [i] }

theorem Like.noted (h : Like N R s t) {ps qs : List Pending} (hps : List.Forall₂ (Pending.Like N) ps qs)
    (hphi : ∀ p ∈ ps, s.work.IsPhi p) :
    Like N R { s with work := { s.work with pending := s.work.pending ++ ps } }
      { t with work := { t.work with pending := t.work.pending ++ qs } } where
  target := h.target
  work := { h.work with
    pending := List.rel_append h.work.pending hps
    phis := fun p hp => (List.mem_append.mp hp).elim (h.work.phis p) (hphi p) }

end

theorem fits_of_aligned {op : Opcode} {rest : Slot} {slots : List Slot} {as bs : List Word}
    (h : Aligned R rest slots as bs) (fits : (Instruction.of op as).Fits) :
    (Instruction.of op bs).Fits := by
  unfold Instruction.Fits Instruction.size Instruction.of at fits ⊢
  rwa [← h.length_eq]

theorem mirrors_emitTo {sec : Section} {op : Opcode} {as bs : List Word}
    (h : Aligned R op.rest (op.format false).leading as bs) :
    Mirrors N R [] (fun _ _ => True) (emitTo sec op as) (emitTo sec op bs) := by
  refine mirrors_of fun s a s' t run like => ?_
  obtain ⟨fits, rfl⟩ := emitTo_ok_iff.mp run
  have fits' := fits_of_aligned h fits
  exact ⟨rfl, (), _, emitTo_ok_iff.mpr ⟨fits', rfl⟩, rfl, trivial, like.appended sec (.of h)⟩

theorem mirrors_emit {op : Opcode} {as bs : List Word}
    (h : Aligned R op.rest (op.format false).leading as bs) :
    Mirrors N R [] (fun _ _ => True) (emit op as) (emit op bs) := mirrors_emitTo h

theorem mirrors_declare (total : ∀ a, ∃ b, R a b) (r : Dictionary.Request) :
    Mirrors N R [r] (fun a b => R a.word b.word) (declare (Dictionary.perform r))
      (declare (Dictionary.perform r)) := by
  intro s a s' t run like
  obtain ⟨d, hd, rfl⟩ := onPart_ok_iff.mp run
  have like' (d₁ d₂ : Dictionary) : Like N R { s with dictionary := d₁ } { t with dictionary := d₂ } :=
    ⟨like.target, like.work⟩
  obtain ⟨w, hw⟩ := total a.word
  have hword : (Id.mk w.toNat).word = w := UInt32.ofNat_toNat
  rw [← hword] at hw
  refine ⟨[a], mapM_cons_ok_iff.mpr ⟨a, [], d, hd, rfl, rfl⟩,
    ⟨⟨w.toNat⟩, { t with dictionary := d }, hw, like' d d⟩, fun ids' d' answers related => ?_⟩
  obtain ⟨b, rest, d₁, hb, hrest, rfl⟩ := mapM_cons_ok_iff.mp answers
  obtain ⟨rfl, rfl⟩ := mapM_nil_ok_iff.mp hrest
  obtain ⟨hab, -⟩ := List.forall₂_cons.mp related
  exact ⟨b, _, onPart_ok_iff.mpr ⟨d₁, hb, rfl⟩, rfl, hab, like' d d₁⟩

theorem mirrors_typeWord (total : ∀ a, ∃ b, R a b) (type : Ty) :
    Mirrors N R [.type type] R (typeWord type) (typeWord type) :=
  (mirrors_declare total (.type type)).map fun _ _ h => h

theorem mirrors_constantWord (total : ∀ a, ∃ b, R a b) (c : Constant) :
    Mirrors N R [.constant c] R (constantWord c) (constantWord c) :=
  (mirrors_declare total (.constant c)).map fun _ _ h => h

theorem mirrors_take : Mirrors N R [] (fun a b => a = b ∧ R a.word a.word) (onTable IdTable.fresh)
    (onTable IdTable.fresh) := by
  refine mirrors_of fun s a s' t run like => ?_
  obtain ⟨room, rfl, rfl⟩ := fresh_ok_iff.mp run
  have room' : t.work.table.range.next < t.work.table.range.stop := by rwa [like.work.range]
  refine ⟨rfl, _, _, fresh_ok_iff.mpr ⟨room', rfl, rfl⟩, rfl, ⟨like.nextId.symm, ?_⟩, like.taken⟩
  exact like.work.own _ room

theorem mirrors_fresh : Mirrors N R [] (fun a b => a = b ∧ R a a) fresh fresh :=
  mirrors_take.map fun _ _ h => ⟨by rw [h.1], h.2⟩

theorem mirrors_allocate {e e' : Entity} (he : e.Like N e') :
    Mirrors N R [] (fun a b => a = b ∧ R a.word a.word) (onTable (IdTable.allocate e))
      (onTable (IdTable.allocate e')) := by
  refine mirrors_of fun s a s' t run like => ?_
  obtain ⟨new, room, rfl, rfl⟩ := allocate_ok_iff.mp run
  have new' := like.work.get?_eq_none he new
  have room' : t.work.table.range.next < t.work.table.range.stop := by rwa [like.work.range]
  have own : R s.nextId.word s.nextId.word := like.work.own _ room
  have same : e.Same R s.nextId t.nextId := by
    rw [like.nextId]
    cases e with
    | value => exact own
    | block => exact ⟨rfl, own⟩
  exact ⟨rfl, _, _, allocate_ok_iff.mpr ⟨new', room', rfl, rfl⟩, rfl, ⟨like.nextId.symm, own⟩,
    like.taken.named he same⟩

theorem mirrors_bind {v v' : ValueId} (hv : N.value v v') {a b : Id} (hab : R a.word b.word) :
    Mirrors N R [] (fun _ _ => True) (onTable (IdTable.bind (.value v) a))
      (onTable (IdTable.bind (.value v') b)) := by
  refine mirrors_of fun s _ s' t run like => ?_
  obtain ⟨new, rfl⟩ := bind_ok_iff.mp run
  have new' := like.work.get?_eq_none (Entity.like_value hv) new
  exact ⟨rfl, (), _, bind_ok_iff.mpr ⟨new', rfl⟩, rfl, trivial,
    like.named (Entity.like_value hv) hab⟩

theorem mirrors_operand {v v' : ValueId} (hv : N.value v v') :
    Mirrors N R [] R (operand v) (operand v') := by
  refine mirrors_of fun s x s' t run like => ?_
  obtain ⟨hx, rfl⟩ := operand_ok_iff.mp run
  obtain ⟨y, hy, hxy⟩ := like.work.value? hv hx
  exact ⟨rfl, y, t, operand_ok_iff.mpr ⟨hy, rfl⟩, rfl, hxy, like⟩

theorem mirrors_label {b b' : BlockId} (hb : N.block b b') :
    Mirrors N R [] (fun x y => x = y ∧ R x x) (label b) (label b') := by
  refine mirrors_of fun s x s' t run like => ?_
  obtain ⟨hx, rfl⟩ := label_ok_iff.mp run
  obtain ⟨hx', own⟩ := like.work.label? hb hx
  exact ⟨rfl, x, t, label_ok_iff.mpr ⟨hx', rfl⟩, rfl, ⟨rfl, own⟩, like⟩

/-! ## Tasks -/

end Emission

section

variable (N : Naming) (R : Word → Word → Prop)

structure Frame.Like (f f' : Frame) : Prop where
  functions : ∀ m m' id, N.method m m' → f.functions.get? m = some id →
    f'.functions.get? m' = some id ∧ R id.word id.word
  openCl : f'.openCl = f.openCl
  imported : R f.openCl.word f.openCl.word
  debugNames : f'.debugNames = f.debugNames

structure Task.Like (t t' : Task) : Prop where
  frame : t.frame.Like N R t'.frame
  method : t.method.Like N t'.method
  storage : t.storage.Like N t'.storage
  id : t'.id = t.id
  own : R t.id.word t.id.word
  entry : t'.entry.map EntryPoint.groupSize = t.entry.map EntryPoint.groupSize

end

theorem Frame.Like.mono {R' : Word → Word → Prop} (hR : ∀ a b, R a b → R' a b) {f f' : Frame}
    (h : f.Like N R f') : f.Like N R' f' where
  functions m m' id hm hid := ⟨(h.functions m m' id hm hid).1, hR _ _ (h.functions m m' id hm hid).2⟩
  openCl := h.openCl
  imported := hR _ _ h.imported
  debugNames := h.debugNames

theorem Task.Like.mono {R' : Word → Word → Prop} (hR : ∀ a b, R a b → R' a b) {t t' : Task}
    (h : t.Like N R t') : t.Like N R' t' :=
  { h with frame := h.frame.mono hR, own := hR _ _ h.own }

namespace Emission

/-! ## Values -/

section

variable {task task' : Task} {v v' : Value}

theorem mirrors_typeOf (ht : task.Like N R task') {u u' : ValueId} (hu : N.value u u') :
    Mirrors N R [] (fun a b => a = b ∧ task.method.typeOf? u = some a) (typeOf task u)
      (typeOf task' u') := by
  refine mirrors_of fun s a s' t run like => ?_
  obtain ⟨htype, rfl⟩ := typeOf_ok_iff.mp run
  refine ⟨rfl, a, t, typeOf_ok_iff.mpr ⟨?_, rfl⟩, rfl, ⟨rfl, htype⟩, like⟩
  rw [ht.method.typeOf? hu, htype]

theorem mirrors_result (total : ∀ a, ∃ b, R a b) (hv : v.Like N v') :
    Mirrors N R [.type v.type] (fun x y => R x.1 y.1 ∧ x.2 = y.2 ∧ R x.2 x.2) (result v) (result v') := by
  rw [result, result, hv.type]
  refine (mirrors_typeWord total v.type).last fun type type' htype => ?_
  refine (mirrors_allocate (Entity.like_value hv.id)).first fun a b hab => ?_
  exact mirrors_pure ⟨htype, by rw [hab.1], hab.2⟩

theorem mirrors_emitResult (total : ∀ a, ∃ b, R a b) (hv : v.Like N v') {op : Opcode} {as bs : List Word}
    (h : ∀ type type' id, R type type' → R id id →
      Aligned R op.rest (op.format false).leading (type :: id :: as) (type' :: id :: bs)) :
    Mirrors N R [.type v.type] (fun _ _ => True) (emitResult v op as) (emitResult v' op bs) := by
  refine (mirrors_result total hv).last fun x y hxy => ?_
  obtain ⟨type, id⟩ := x
  obtain ⟨type', id'⟩ := y
  obtain ⟨htype, rfl, hid⟩ := hxy
  exact mirrors_emit (h _ _ _ htype hid)

theorem mirrors_compute (total : ∀ a, ∃ b, R a b) (hv : v.Like N v') {op : Opcode} {as bs : List Word}
    (hop : op.format false = .computation) (h : List.Forall₂ R as bs) :
    Mirrors N R [.type v.type] (fun _ _ => True) (emitResult v op as) (emitResult v' op bs) :=
  mirrors_emitResult total hv fun _ _ _ htype hid => aligned_computation hop htype hid h

theorem mirrors_unitWord (total : ∀ a, ∃ b, R a b) (type : Ty) (one : Bool) :
    Mirrors N R (unitRequests type one) R (unitWord type one) (unitWord type one) := by
  refine (mirrors_ofExcept _).first ?_
  rintro c _ ⟨rfl, hc⟩
  rw [unitRequests, hc]
  exact mirrors_constantWord total c

theorem mirrors_emitConversion (total : ∀ a, ∃ b, R a b) (ht : task.Like N R task') (hv : v.Like N v')
    {source source' : ValueId} (hsource : N.value source source') (flags : ConvertFlags) :
    Mirrors N R (conversionRequests task.method v source flags) (fun _ _ => True)
      (emitConversion task v source flags) (emitConversion task' v' source' flags) := by
  refine (mirrors_typeOf ht hsource).first ?_
  rintro type _ ⟨rfl, htype⟩
  rw [hv.type]
  refine (mirrors_ofExcept _).first ?_
  rintro c _ ⟨rfl, hc⟩
  refine (mirrors_operand hsource).first fun x y hxy => ?_
  rw [conversionRequests, htype]
  dsimp only
  rw [hc]
  have computation {code : Opcode} (h : c.opcode? = some code) : code.format false = .computation :=
    Conversion.computation_of_between? (Conversion.between_ok_iff.mp hc) h
  cases c with
  | direct op => exact mirrors_compute total hv (computation rfl) (.cons hxy .nil)
  | fromBool =>
    refine (mirrors_unitWord total _ _).bind fun one one' hone => ?_
    refine (mirrors_unitWord total _ _).bind fun zero zero' hzero => ?_
    exact mirrors_compute total hv rfl (.cons hxy (.cons hone (.cons hzero .nil)))
  | toBool op =>
    refine (mirrors_unitWord total _ _).bind fun zero zero' hzero => ?_
    exact mirrors_compute total hv (computation rfl) (.cons hxy (.cons hzero .nil))

theorem mirrors_operands {us us' : List ValueId} (h : List.Forall₂ N.value us us') :
    Mirrors N R [] (List.Forall₂ R) (us.mapM operand) (us'.mapM operand) := by
  induction h with
  | nil => exact mirrors_pure .nil
  | cons hu _ ih =>
    rw [List.mapM_cons, List.mapM_cons]
    refine (mirrors_operand hu).first fun x y hxy => ih.first fun xs ys hxs => ?_
    exact mirrors_pure (.cons hxy hxs)

theorem mirrors_function (ht : task.Like N R task') {m m' : MethodId} (hm : N.method m m') :
    Mirrors N R [] (fun a b => a = b ∧ R a.word a.word) (ofExcept (task.frame.functions.get m))
      (ofExcept (task'.frame.functions.get m')) := by
  refine mirrors_of fun s a s' t run like => ?_
  obtain ⟨hget, rfl⟩ := ofExcept_ok_iff.mp run
  obtain ⟨hget', own⟩ := ht.frame.functions m m' a hm (FunctionTable.get_ok_iff.mp hget)
  exact ⟨rfl, a, t, ofExcept_ok_iff.mpr ⟨FunctionTable.get_ok_iff.mpr hget', rfl⟩, rfl, ⟨rfl, own⟩, like⟩

theorem mirrors_emitCall (total : ∀ a, ∃ b, R a b) (ht : task.Like N R task') (hv : v.Like N v')
    {callee callee' : Callee} {args args' : List ValueId} (hcallee : callee.Like N callee')
    (hargs : List.Forall₂ N.value args args') (flags : ArithmeticFlags) :
    Mirrors N R [.type v.type] (fun _ _ => True) (emitCall task v callee args flags)
      (emitCall task' v' callee' args' flags) := by
  refine (mirrors_operands hargs).first fun xs ys hxs => ?_
  cases hcallee with
  | method hm =>
    refine (mirrors_function ht hm).first ?_
    rintro function _ ⟨rfl, own⟩
    refine mirrors_emitResult total hv fun _ _ _ htype hid => ?_
    exact .lead htype (.lead hid (.lead own (aligned_rest hxs)))
  | intrinsic f =>
    cases hargs with
    | nil => exact mirrors_fail
    | cons harg _ =>
      refine (mirrors_typeOf ht harg).first ?_
      rintro type _ ⟨rfl, -⟩
      refine (mirrors_ofExcept _).first ?_
      rintro form _ ⟨rfl, hform⟩
      cases form with
      | core op =>
        have hop := (Opcode.OfOperator.intrinsic (Operator.demand_ok_iff.mp hform)).computation
        exact mirrors_compute total hv hop hxs
      | extended number =>
        refine mirrors_emitResult total hv fun _ _ _ htype hid => ?_
        rw [ht.frame.openCl]
        exact .lead htype (.lead hid (.lead ht.frame.imported (.lead rfl (aligned_rest hxs))))

/-- Places of a phi that are still to be filled, with what they wait for. -/
def Missing.Like (N : Naming) (x y : Nat × ValueId) : Prop := x.1 = y.1 ∧ N.value x.2 y.2

theorem mirrors_phiOperands (ht : task.Like N R task') {incoming incoming' : List (ValueId × BlockId)}
    (h : List.Forall₂ (Incoming.Like N) incoming incoming') (start : Nat) :
    Mirrors N R [] (fun x y => List.Forall₂ R x.1 y.1 ∧ List.Forall₂ (Missing.Like N) x.2 y.2)
      (phiOperands task start incoming) (phiOperands task' start incoming') := by
  induction h generalizing start with
  | nil => exact mirrors_pure ⟨.nil, .nil⟩
  | @cons x y _ _ hxy _ ih =>
    obtain ⟨v, b⟩ := x
    obtain ⟨v', b'⟩ := y
    obtain ⟨hv, hb⟩ := hxy
    refine (mirrors_typeOf ht hv).first fun _ _ _ => ?_
    refine mirrors_state.first fun s t like => ?_
    refine (mirrors_label hb).first ?_
    rintro block _ ⟨rfl, own⟩
    refine (ih (start + 2)).first fun rest rest' hrest => ?_
    have found := like.work.get? (Entity.like_value hv)
    generalize s.work.table.get? (.value v) = o at found
    generalize t.work.table.get? (.value v') = o' at found
    cases found with
    | some same => exact mirrors_pure ⟨.cons same (.cons own hrest.1), hrest.2⟩
    | none => exact mirrors_pure ⟨.cons like.work.zero (.cons own hrest.1), .cons ⟨rfl, hv⟩ hrest.2⟩

theorem mirrors_phi {as bs : List Word} {missing missing' : List (Nat × ValueId)}
    (h : Aligned R Opcode.phi.rest (Opcode.phi.format false).leading as bs)
    (hmissing : List.Forall₂ (Missing.Like N) missing missing') :
    Mirrors N R [] (fun _ _ => True)
      (do
        let s ← Attempt.state
        let position := s.work.output.functions.length
        emit .phi as
        onWork (Attempt.change fun w => { w with
          pending := w.pending ++ missing.map fun (place, value) => ⟨position, place, value⟩ }))
      (do
        let s ← Attempt.state
        let position := s.work.output.functions.length
        emit .phi bs
        onWork (Attempt.change fun w => { w with
          pending := w.pending ++ missing'.map fun (place, value) => ⟨position, place, value⟩ })) := by
  -- The instruction is noted together with the places that it leaves open.
  refine mirrors_of fun s _ s' t run like => ?_
  simp only [bind_eq_ok_iff, state_ok_iff, emit, emitTo_ok_iff, onWork, onPart_ok_iff,
    change_ok_iff] at run ⊢
  obtain ⟨_, _, ⟨rfl, rfl⟩, _, _, ⟨fits, rfl⟩, _, rfl, rfl⟩ := run
  have fits' := fits_of_aligned h fits
  have length : s.work.output.functions.length = t.work.output.functions.length :=
    (like.work.output .functions).length_eq
  refine ⟨rfl, (), _, ⟨t, t, ⟨rfl, rfl⟩, (), _, ⟨fits', rfl⟩, _, rfl, rfl⟩, rfl, trivial, ?_⟩
  refine (like.appended .functions (.of h)).noted ?_ ?_
  · refine List.rel_map (fun x y hxy => ?_) hmissing
    exact ⟨length.symm, hxy.1.symm, hxy.2⟩
  · intro p hp
    obtain ⟨x, -, rfl⟩ := List.mem_map.mp hp
    exact ⟨as, List.getElem?_concat_length⟩

theorem mirrors_emitPhi (total : ∀ a, ∃ b, R a b) (ht : task.Like N R task') (hv : v.Like N v')
    {incoming incoming' : List (ValueId × BlockId)}
    (h : List.Forall₂ (Incoming.Like N) incoming incoming') :
    Mirrors N R [.type v.type] (fun _ _ => True) (emitPhi task v incoming)
      (emitPhi task' v' incoming') := by
  refine (mirrors_result total hv).last fun x y hxy => ?_
  obtain ⟨type, id⟩ := x
  obtain ⟨type', id'⟩ := y
  obtain ⟨htype, rfl, hid⟩ := hxy
  refine (mirrors_phiOperands ht h 2).first fun x y hxy => ?_
  exact mirrors_phi (.lead htype (.lead hid (aligned_rest hxy.1))) hxy.2

theorem mirrors_emitGridIndex (total : ∀ a, ∃ b, R a b) (hv : v.Like N v') (builtin : GridBuiltin)
    (dimension : UInt8) :
    Mirrors N R [.builtin builtin.variable, .type BuiltIn.type, .type .i64, .type v.type]
      (fun _ _ => True) (emitGridIndex v builtin dimension) (emitGridIndex v' builtin dimension) := by
  unfold emitGridIndex
  rw [hv.type]
  split
  · exact mirrors_fail
  · split
    · refine (mirrors_declare total (.builtin builtin.variable)).bind fun vars vars' hvars => ?_
      refine (mirrors_typeWord total BuiltIn.type).bind fun vector vector' hvector => ?_
      refine (mirrors_typeWord total .i64).bind fun wide wide' hwide => ?_
      refine mirrors_fresh.first ?_
      rintro loaded _ ⟨rfl, own⟩
      refine Mirrors.first (mirrors_emit ?_) fun _ _ _ => ?_
      · exact .lead hvector (.lead own (.lead hvars (.nil _)))
      split
      · refine mirrors_emitResult total hv fun _ _ _ htype hid => ?_
        exact .lead htype (.lead hid (.lead own (.rest rfl (.nil _))))
      · refine mirrors_fresh.first ?_
        rintro extracted _ ⟨rfl, own'⟩
        refine Mirrors.first (mirrors_emit ?_) fun _ _ _ => ?_
        · exact .lead hwide (.lead own' (.lead own (.rest rfl (.nil _))))
        exact mirrors_compute total hv rfl (.cons own' .nil)
    · exact mirrors_fail

theorem mirrors_emitBarrier (total : ∀ a, ∃ b, R a b) :
    Mirrors N R [.constant (.ofWord workgroupScope), .constant (.ofWord barrierSemantics)]
      (fun _ _ => True) emitBarrier emitBarrier := by
  refine (mirrors_constantWord total _).bind fun scope scope' hscope => ?_
  refine (mirrors_constantWord total _).last fun semantics semantics' hsemantics => ?_
  exact mirrors_emit (.lead hscope (.lead hscope (.lead hsemantics (.nil _))))

theorem mirrors_emitValue (total : ∀ a, ∃ b, R a b) (ht : task.Like N R task') (hv : v.Like N v') :
    Mirrors N R (valueRequests task.method v) (fun _ _ => True) (emitValue task v)
      (emitValue task' v') := by
  have hkind := hv.kind
  rw [valueRequests, emitValue, emitValue]
  generalize v.kind = kind at hkind
  generalize v'.kind = kind' at hkind
  cases hkind with
  | constant c =>
    exact (mirrors_declare total (.constant c)).last fun a b hab => mirrors_bind hv.id hab
  | undef => exact mirrors_emitResult total hv fun _ _ _ htype hid => .lead htype (.lead hid (.nil _))
  | binary op flags ha hb =>
    rw [hv.type]
    refine (mirrors_ofExcept _).first ?_
    rintro code _ ⟨rfl, hcode⟩
    refine (mirrors_operand ha).first fun x y hxy => ?_
    refine (mirrors_operand hb).first fun x' y' hxy' => ?_
    have hop := (Opcode.OfOperator.binary (Operator.demand_ok_iff.mp hcode)).computation
    exact mirrors_compute total hv hop (.cons hxy (.cons hxy' .nil))
  | unary op ha =>
    rw [hv.type]
    refine (mirrors_ofExcept _).first ?_
    rintro code _ ⟨rfl, hcode⟩
    refine (mirrors_operand ha).first fun x y hxy => ?_
    have hop := (Opcode.OfOperator.unary (Operator.demand_ok_iff.mp hcode)).computation
    exact mirrors_compute total hv hop (.cons hxy .nil)
  | compare op flags ha hb =>
    refine (mirrors_typeOf ht ha).first ?_
    rintro type _ ⟨rfl, -⟩
    refine (mirrors_ofExcept _).first ?_
    rintro code _ ⟨rfl, hcode⟩
    refine (mirrors_operand ha).first fun x y hxy => ?_
    refine (mirrors_operand hb).first fun x' y' hxy' => ?_
    have hop := (Opcode.OfOperator.compare (Operator.demand_ok_iff.mp hcode)).computation
    exact mirrors_compute total hv hop (.cons hxy (.cons hxy' .nil))
  | convert flags ha => exact mirrors_emitConversion total ht hv ha flags
  | select ha hb hc =>
    refine (mirrors_operand ha).first fun c c' hc' => ?_
    refine (mirrors_operand hb).first fun x y hxy => ?_
    refine (mirrors_operand hc).first fun x' y' hxy' => ?_
    exact mirrors_compute total hv rfl (.cons hc' (.cons hxy (.cons hxy' .nil)))
  | alloca elem extent =>
    dsimp only
    rw [ht.storage.kindOf? hv.id]
    cases task.storage.kindOf? v.id with
    | some kind => exact mirrors_pure trivial
    | none => exact mirrors_fail
  | load ha =>
    refine (mirrors_operand ha).first fun x y hxy => ?_
    refine mirrors_emitResult total hv fun _ _ _ htype hid => ?_
    exact .lead htype (.lead hid (.lead hxy (.nil _)))
  | store ha hb =>
    refine (mirrors_operand ha).first fun x y hxy => ?_
    refine (mirrors_operand hb).first fun x' y' hxy' => ?_
    exact mirrors_emit (.lead hxy (.lead hxy' (.nil _)))
  | elementAddress ha hb =>
    refine (mirrors_operand ha).first fun x y hxy => ?_
    refine (mirrors_operand hb).first fun x' y' hxy' => ?_
    exact mirrors_compute total hv rfl (.cons hxy (.cons hxy' .nil))
  | fieldAddress field ha =>
    refine (mirrors_operand ha).first fun x y hxy => ?_
    refine (mirrors_constantWord total _).bind fun i j hij => ?_
    exact mirrors_compute total hv rfl (.cons hxy (.cons hij .nil))
  | extractField field ha =>
    refine (mirrors_operand ha).first fun x y hxy => ?_
    refine mirrors_emitResult total hv fun _ _ _ htype hid => ?_
    exact .lead htype (.lead hid (.lead hxy (.rest rfl (.nil _))))
  | call flags hcallee hargs => exact mirrors_emitCall total ht hv hcallee hargs flags
  | phi h => exact mirrors_emitPhi total ht hv h
  | gridIndex builtin dimension => exact mirrors_emitGridIndex total hv builtin dimension
  | barrier => exact mirrors_emitBarrier total
  | inlineAssembly => exact mirrors_fail

end

end Emission

end SpirvKernel
