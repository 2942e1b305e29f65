import Mathlib.Data.List.Nodup
import SpirvKernel.Module
import SpirvKernel.Proofs.Emission.Method

/-!
# Identifiers set aside

The functions of a program take the identifiers after the import's. What is declared later and the
ranges of the methods never overlap, since all come from one supply.
-/

namespace SpirvKernel

open Instruction Attempt

/-! ## Words of identifiers -/

theorem toNat_ofNat {n : Nat} (h : n ≤ Supply.limit) : (UInt32.ofNat n).toNat = n := by
  rw [UInt32.toNat_ofNat_of_lt']
  simp only [Supply.limit, UInt32.size] at h ⊢
  omega

theorem mem_wordsFrom {a b : Nat} {w : Word} (hb : b ≤ Supply.limit) :
    w ∈ wordsFrom a b ↔ a ≤ w.toNat ∧ w.toNat < b := by
  simp only [wordsFrom, List.mem_map, List.mem_range'_1]
  constructor
  · rintro ⟨n, hn, rfl⟩
    rw [toNat_ofNat (by omega)]
    omega
  · intro hw
    exact ⟨w.toNat, by omega, by simp⟩

theorem nodup_wordsFrom {a b : Nat} (hb : b ≤ Supply.limit) : (wordsFrom a b).Nodup := by
  refine List.Nodup.map_on ?_ List.nodup_range'
  intro m hm n hn h
  rw [List.mem_range'_1] at hm hn
  have := congrArg UInt32.toNat h
  rwa [toNat_ofNat (by omega), toNat_ofNat (by omega)] at this

def IdRange.words (r : IdRange) : List Word := wordsFrom r.next r.stop

/-! ## Functions -/

namespace Supply

theorem draw_ok_iff {s s' : Supply} {id : Id} :
    draw s = (.ok id, s') ↔ s.next + 1 ≤ limit ∧ id = ⟨s.next⟩ ∧ s' = ⟨s.next + 1⟩ := by
  rw [draw_apply]
  split
  · rename_i h
    simp [h, eq_comm]
  · rename_i h
    simp [h]

theorem reserve_ok_iff {s s' : Supply} {n : Nat} {r : IdRange} :
    reserve n s = (.ok r, s') ↔
      s.next + n ≤ limit ∧ r = ⟨s.next, s.next + n⟩ ∧ s' = ⟨s.next + n⟩ := by
  unfold reserve
  split
  · rename_i h
    simp [h, eq_comm]
  · rename_i h
    simp [h]

end Supply

namespace FunctionTable

/-- The table `t` is `t₀` with the methods `ms` numbered from `first`. -/
structure Numbers (t₀ : FunctionTable) (ms : List Method) (first : Nat) (t : FunctionTable) :
    Prop where
  listed : ∀ m id, t.get? m = some id → t₀.get? m = some id ∨
    m ∈ ms.map (·.id) ∧ first ≤ id.number ∧ id.number < first + ms.length
  others : ∀ m, m ∉ ms.map (·.id) → t.get? m = t₀.get? m
  ordered : (ms.map (·.id)).Nodup →
    ms.map (fun m => t.get? m.id) = (List.range' first ms.length).map fun n => some ⟨n⟩

theorem numbers_ok {ms : List Method} {t₀ t : FunctionTable} {s s' : Supply}
    (h : ms.foldlM (fun table m => table.insert m.id <$> Supply.draw) t₀ s = (.ok t, s')) :
    s'.next = s.next + ms.length ∧ (s.next ≤ Supply.limit → s'.next ≤ Supply.limit) ∧
      Numbers t₀ ms s.next t := by
  induction ms generalizing t₀ s with
  | nil =>
    obtain ⟨rfl, rfl⟩ := pure_ok_iff.mp h
    exact ⟨rfl, id, fun _ _ h => .inl h, fun _ _ => rfl, fun _ => rfl⟩
  | cons m ms ih =>
    rw [List.foldlM_cons, bind_eq_ok_iff] at h
    obtain ⟨_, s₁, hinsert, h⟩ := h
    obtain ⟨_, hdraw, rfl⟩ := map_ok_iff.mp hinsert
    obtain ⟨room, rfl, rfl⟩ := Supply.draw_ok_iff.mp hdraw
    obtain ⟨hnext, hlimit, listed, others, ordered⟩ := ih h
    refine ⟨by simp only [hnext, List.length_cons]; omega, fun _ => hlimit room, ?_, ?_, ?_⟩
    · intro k id hk
      rw [List.map_cons, List.mem_cons, List.length_cons]
      rcases listed k id hk with hk | ⟨hk, hfirst, hlast⟩
      · rw [get?_insert] at hk
        split at hk
        · rename_i heq
          cases hk
          exact .inr ⟨.inl heq, Nat.le_refl _, by simp only; omega⟩
        · exact .inl hk
      · simp only at hfirst hlast
        exact .inr ⟨.inr hk, by omega, by omega⟩
    · intro k hk
      rw [List.map_cons, List.mem_cons, not_or] at hk
      rw [others k hk.2, get?_insert, if_neg hk.1]
    · intro hnodup
      rw [List.map_cons, List.nodup_cons] at hnodup
      rw [List.map_cons, List.length_cons, List.range'_succ, List.map_cons, ordered hnodup.2,
        others m.id hnodup.1, get?_insert, if_pos rfl]

end FunctionTable

/-- The frame takes the identifier `first` for the import and those after it for the functions. -/
structure Frame.Of (p : Program) (first : Nat) (frame : Frame) : Prop where
  openCl : frame.openCl = ⟨first⟩
  listed : ∀ m id, frame.functions.get? m = some id →
    m ∈ p.methods.map (·.id) ∧ first < id.number ∧ id.number ≤ first + p.methods.length
  ordered : (p.methods.map (·.id)).Nodup → p.methods.map (fun m => frame.functions.get? m.id) =
    (List.range' (first + 1) p.methods.length).map fun n => some ⟨n⟩

theorem Frame.ofProgram_ok {p : Program} {debugNames : Bool} {s s' : Supply} {frame : Frame}
    (h : Frame.ofProgram p debugNames s = (.ok frame, s')) :
    s'.next = s.next + 1 + p.methods.length ∧ s'.next ≤ Supply.limit ∧ frame.Of p s.next := by
  simp only [ofProgram, bind_eq_ok_iff, pure_ok_iff, Supply.draw_ok_iff] at h
  obtain ⟨_, _, ⟨room, rfl, rfl⟩, functions, _, hfunctions, rfl, rfl⟩ := h
  obtain ⟨hnext, hlimit, numbers⟩ := FunctionTable.numbers_ok hfunctions
  refine ⟨hnext, hlimit room, rfl, fun m id hm => ?_, numbers.ordered⟩
  rcases numbers.listed m id hm with hm | hm
  · cases hm
  · simp only at hm
    exact ⟨hm.1, by omega, by omega⟩

/-! ## Taking up a method -/

theorem Task.start_ok_iff {frame : Frame} {m : Method} {storage : Storage}
    {entry : Option EntryPoint} {s s' : Supply} {t : Task} {w : Work} :
    Task.start frame m storage entry s = (.ok (t, w), s') ↔
      ∃ id, frame.functions.get? m.id = some id ∧ s.next + m.idBudget ≤ Supply.limit ∧
        t = ⟨frame, m, storage, id, entry⟩ ∧ w = Emission.start ⟨s.next, s.next + m.idBudget⟩ ∧
        s' = ⟨s.next + m.idBudget⟩ := by
  simp only [start, bind_eq_ok_iff, ofExcept_ok_iff, FunctionTable.get_ok_iff,
    Supply.reserve_ok_iff, pure_ok_iff, Prod.mk.injEq]
  constructor
  · rintro ⟨id, _, ⟨hid, rfl⟩, _, _, ⟨room, rfl, rfl⟩, ⟨rfl, rfl⟩, rfl⟩
    exact ⟨id, hid, room, rfl, rfl, rfl⟩
  · rintro ⟨id, hid, room, rfl, rfl, rfl⟩
    exact ⟨id, s, ⟨hid, rfl⟩, _, _, ⟨room, rfl, rfl⟩, ⟨rfl, rfl⟩, rfl⟩

theorem generated_text {p : Program} {debugNames : Bool} {frame : Frame} {m : Method}
    {storage : Storage} {entry : Option EntryPoint} {s₀ s s' : Supply} {t : Task} {w : Work}
    {d₁ d₂ : Dictionary} {g₁ g₂ : Layout Instruction} {s₁ s₂ : Emission}
    (hframe : Frame.ofProgram p debugNames Supply.new = (.ok frame, s₀)) (hlater : s₀.next ≤ s.next)
    (hstart : Task.start frame m storage entry s = (.ok (t, w), s'))
    (hheader : Emission.header t ⟨d₁, g₁, w⟩ = (.ok (), s₁))
    (hbody : Emission.body t ⟨d₂, g₂, s₁.work⟩ = (.ok (), s₂)) :
    t.method = m ∧ s₂.work.table.range.next ≤ Supply.limit ∧
      ∃ r x, Emission.Text.Of t s₂.dictionary r s₂.work x ∧ (results x.functions).Nodup := by
  obtain ⟨hnext, hlimit, hof⟩ := Frame.ofProgram_ok hframe
  obtain ⟨id, hid, room, rfl, rfl, -⟩ := Task.start_ok_iff.mp hstart
  obtain ⟨x, text⟩ :=
    Emission.text_of (Nat.le_add_right s.next m.idBudget) hheader hbody (.refl _)
  have hstop := text.stop
  have hdrawn := text.next
  simp only at hstop hdrawn
  have hbound : s₂.work.table.range.next ≤ Supply.limit := Nat.le_trans hstop room
  refine ⟨rfl, hbound, _, x, text, ?_⟩
  -- The function has an identifier of its own, from before the range of the method.
  obtain ⟨-, -, hnumber⟩ := hof.listed m.id id hid
  rw [text.results.nodup_iff, List.nodup_cons]
  refine ⟨fun hmem => ?_, nodup_wordsFrom hbound⟩
  have hword : id.word.toNat = id.number := toNat_ofNat (by omega)
  have := (mem_wordsFrom hbound).mp hmem
  simp only [hword] at this
  omega

/-! ## Declarations and ranges -/

/-- The results of the declarations and the ranges `rs` do not overlap, and come after `base`. -/
structure Apart (base : Nat) (d : Dictionary) (rs : List IdRange) : Prop where
  nodup : (results d.declarations ++ rs.flatMap IdRange.words).Nodup
  bounds : ∀ w ∈ results d.declarations ++ rs.flatMap IdRange.words,
    base ≤ w.toNat ∧ w.toNat < d.supply.next
  start : base ≤ d.supply.next
  limit : d.supply.next ≤ Supply.limit

theorem nodup_append_of_lt {ws vs : List Word} {n : Nat} (hw : ws.Nodup) (hv : vs.Nodup)
    (hlt : ∀ w ∈ ws, w.toNat < n) (hle : ∀ v ∈ vs, n ≤ v.toNat) : (ws ++ vs).Nodup := by
  rw [List.nodup_append]
  refine ⟨hw, hv, fun w hw v hv h => ?_⟩
  have := hlt w hw
  have := hle v hv
  rw [h] at *
  omega

namespace Apart

variable {base : Nat} {d d' : Dictionary} {rs : List IdRange}

theorem new {s : Supply} (hb : base ≤ s.next) (hl : s.next ≤ Supply.limit) :
    Apart base (.new s) [] where
  nodup := List.nodup_nil
  bounds := by simp [Dictionary.new]
  start := hb
  limit := hl

theorem steps (h : Apart base d rs) (hs : d.Steps d') : Apart base d' rs := by
  obtain ⟨is, ids, ascends⟩ := hs.ascends
  have hlimit := ascends.limit h.limit
  have toNat : ∀ id ∈ ids, id.word.toNat = id.number := fun id hid =>
    toNat_ofNat (by have := ascends.drawn id hid; omega)
  have hnew : (ids.map Id.word).Nodup := by
    refine List.Nodup.map_on (fun a ha b hb h => ?_) (ascends.ordered.imp fun h heq => ?_)
    · have := congrArg UInt32.toNat h
      rw [toNat a ha, toNat b hb] at this
      cases a; cases b; simp_all
    · rw [heq] at h; exact Nat.lt_irrefl _ h
  have hbounds : ∀ w ∈ ids.map Id.word, d.supply.next ≤ w.toNat ∧ w.toNat < d'.supply.next := by
    intro w hw
    obtain ⟨id, hid, rfl⟩ := List.mem_map.mp hw
    rw [toNat id hid]
    exact ascends.drawn id hid
  -- New declarations come between the old ones and the ranges, with numbers above both.
  have hperm : (results d'.declarations ++ rs.flatMap IdRange.words).Perm
      ((results d.declarations ++ rs.flatMap IdRange.words) ++ ids.map Id.word) := by
    rw [ascends.declarations, results_append, ascends.results, List.append_assoc, List.append_assoc]
    exact List.Perm.append_left _ List.perm_append_comm
  have hsupply := ascends.supply
  have := h.start
  refine ⟨?_, fun w hw => ?_, by omega, hlimit⟩
  · rw [hperm.nodup_iff]
    exact nodup_append_of_lt h.nodup hnew (fun w hw => (h.bounds w hw).2)
      fun w hw => (hbounds w hw).1
  · rcases List.mem_append.mp (hperm.mem_iff.mp hw) with hw | hw
    · have := h.bounds w hw; omega
    · have := hbounds w hw; omega

theorem reserve {n : Nat} (h : Apart base d rs) (room : d.supply.next + n ≤ Supply.limit) :
    Apart base { d with supply := ⟨d.supply.next + n⟩ }
      (rs ++ [⟨d.supply.next, d.supply.next + n⟩]) := by
  have hmem := fun w => mem_wordsFrom (a := d.supply.next) (w := w) room
  have := h.start
  have hlist : results d.declarations ++
      (rs ++ [(⟨d.supply.next, d.supply.next + n⟩ : IdRange)]).flatMap IdRange.words =
      (results d.declarations ++ rs.flatMap IdRange.words) ++
        wordsFrom d.supply.next (d.supply.next + n) := by
    simp [IdRange.words]
  refine ⟨?_, fun w hw => ?_, by simp only; omega, room⟩
  · rw [hlist]
    exact nodup_append_of_lt h.nodup (nodup_wordsFrom room) (fun w hw => (h.bounds w hw).2)
      fun w hw => ((hmem w).mp hw).1
  · rw [hlist] at hw
    rcases List.mem_append.mp hw with hw | hw
    · have := h.bounds w hw
      simp only
      omega
    · have := (hmem w).mp hw
      simp only
      omega

end Apart

end SpirvKernel
