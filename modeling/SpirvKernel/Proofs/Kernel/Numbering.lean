import SpirvKernel.Proofs.Kernel.Edit
import SpirvKernel.Proofs.WellFormed

/-!
# Numbers in drafts

Whatever edits are tried on a draft, its parameters and values are numbered from zero without a gap
and its blocks by their place. So no name of the finished method stands for two things, and there is
always an entry block.
-/

namespace SpirvKernel

namespace Draft

/-! ## Numbers -/

/-- The values in the order of the blocks. -/
def values (d : Draft) : List Value := d.blocks.flatMap (·.body)

theorem flatMap_body_modify {bs : List OpenBlock} {i : Nat} (h : i < bs.length)
    {f : OpenBlock → OpenBlock} {vs : List Value} (hf : ∀ b, (f b).body = b.body ++ vs) :
    ((bs.modify i f).flatMap (·.body)).Perm (bs.flatMap (·.body) ++ vs) := by
  induction bs generalizing i with
  | nil => cases h
  | cons b bs ih =>
    cases i with
    | zero =>
      rw [List.modify_zero_cons, List.flatMap_cons, List.flatMap_cons, hf, List.append_assoc,
        List.append_assoc]
      exact List.perm_append_comm.append_left _
    | succ i =>
      rw [List.modify_succ_cons, List.flatMap_cons, List.flatMap_cons, List.append_assoc]
      exact (ih (Nat.lt_of_succ_lt_succ h)).append_left _

theorem values_changeCurrent (d : Draft) {f : OpenBlock → OpenBlock} {vs : List Value}
    (hf : ∀ b, (f b).body = b.body ++ vs) : (d.changeCurrent f).values.Perm (d.values ++ vs) :=
  flatMap_body_modify d.current_lt hf

/-- The names of the parameters and values. -/
def names (d : Draft) : List ValueId := d.params.map (·.value) ++ d.values.map (·.id)

/-- The names are the numbers from zero, each once. -/
def Numbered (d : Draft) : Prop := d.names.Perm ((List.range d.types.length).map ValueId.mk)

variable {d d₁ : Draft}

theorem numbered_new (id : MethodId) (name : String) (returnType : Ty) :
    (new id name returnType).Numbered := .nil

theorem Numbered.of_names (hd : d.Numbered) (names : d₁.names.Perm d.names)
    (types : d₁.types = d.types) : d₁.Numbered := by
  rw [Numbered, types]
  exact names.trans hd

theorem Numbered.push (hd : d.Numbered) {type : Ty}
    (names : d₁.names.Perm (d.names ++ [⟨d.types.length⟩])) (types : d₁.types = d.types ++ [type]) :
    d₁.Numbered := by
  rw [Numbered, types, List.length_append, List.length_singleton, List.range_succ, List.map_append]
  exact names.trans (hd.append_right _)

theorem Change.numbered {event : Event} (h : Change d event d₁) (hd : d.Numbered) :
    d₁.Numbered := by
  cases h with
  | looked | moved => exact hd
  | opened =>
    refine hd.of_names (.of_eq ?_) rfl
    simp [names, values, newBlock]
  | closed t =>
    have kept : (d.changeCurrent fun b => { b with terminator := some t }).values.Perm
        (d.values ++ []) := d.values_changeCurrent fun b => (List.append_nil b.body).symm
    rw [List.append_nil] at kept
    exact hd.of_names ((kept.map _).append_left _) rfl
  | param type =>
    refine hd.push ?_ rfl
    change ((d.params ++ [_]).map Param.value ++ d.values.map Value.id).Perm _
    rw [List.map_append, List.append_assoc, names, List.append_assoc]
    exact List.perm_append_comm.append_left _
  | value type kind =>
    let v : Value := ⟨⟨d.types.length⟩, type, kind⟩
    have more : (d.changeCurrent fun b => { b with body := b.body ++ [v] }).values.Perm
        (d.values ++ [v]) := d.values_changeCurrent fun _ => rfl
    have names := more.map (·.id)
    rw [List.map_append] at names
    refine hd.push ?_ rfl
    rw [Draft.names, Draft.names, List.append_assoc]
    exact names.append_left _

theorem Numbered.performAll (hd : d.Numbered) (edits : List Edit) :
    (d.performAll edits).Numbered :=
  performAll_induction (P := fun _ d => d.Numbered) (fun _ _ _ _ _ _ change => change.numbered) hd edits

/-! ## The finished method -/

theorem values_finish (d : Draft) : d.finish.values = d.values := by
  have bodies : d.finish.blocks.map (·.body) = d.blocks.map (·.body) :=
    List.ext_getElem (by simp [finish]) (by simp [finish])
  rw [Method.values, values, List.flatMap_def, List.flatMap_def, bodies]

theorem blockIds_finish (d : Draft) :
    d.finish.blocks.map (·.id) = (List.range d.blocks.length).map BlockId.mk :=
  List.ext_getElem (by simp [finish]) (by simp [finish])

theorem Numbered.distinct (hd : d.Numbered) : d.finish.Distinct where
  values := by
    rw [values_finish]
    exact hd.nodup_iff.mpr (List.nodup_range.map fun _ _ h => ValueId.mk.inj h)
  blocks := by
    rw [blockIds_finish]
    exact List.nodup_range.map fun _ _ h => BlockId.mk.inj h

end Draft

/-- The method was made from a draft by edits. -/
def Method.Built (m : Method) : Prop :=
  ∃ id name returnType edits, m = ((Draft.new id name returnType).performAll edits).finish

theorem Method.Built.distinct {m : Method} (h : m.Built) : m.Distinct := by
  obtain ⟨id, name, returnType, edits, rfl⟩ := h
  exact ((Draft.numbered_new id name returnType).performAll edits).distinct

theorem Method.Built.blocks_ne_nil {m : Method} (h : m.Built) : m.blocks ≠ [] := by
  obtain ⟨id, name, returnType, edits, rfl⟩ := h
  have current := ((Draft.new id name returnType).performAll edits).current_lt
  refine List.ne_nil_of_length_pos ?_
  simp only [Draft.finish, List.length_mapIdx]
  omega

end SpirvKernel
