import MiniJava.Proofs.InternalErrors
import MiniJava.Proofs.MirroredClass
import MiniJava.Proofs.Renaming

/-!
# Two runs differ by a renaming

Code of two runs is related instruction by instruction, and names by the places where they stand
(`InstrMirror`).  Here the relation becomes a function: the code of the second run is that of the first
with other names (`InstrMirror.eq_rename`), and so is the whole method (`MethodMirror.exists_rename`).

The variables are renamed by a permutation for each method, which moves names of temporaries only.  A
variable that the program itself calls by such a name stays where it is.  One permutation of the labels
does for all methods of a class.
-/

set_option autoImplicit false

namespace MiniJava

open IR

/-! ## Names in code -/

namespace IR

variable {name : Text} {x : Instr}

theorem Operand.mem_names_of_uses {x : Operand} (h : name ∈ x.uses) : name ∈ x.names := by
  cases x with
  | missing | literal _ _ => cases h
  | var _ _ => exact h
  | elem base index ty =>
    cases index with
    | var _ _ => exact h
    | missing | literal _ _ | elem _ _ _ =>
      rw [List.mem_singleton.1 h]
      exact List.mem_cons_self

theorem Instr.mem_names_of_uses (h : name ∈ x.uses) : name ∈ x.names := by
  induction x with
  | missing | goto _ => cases h
  | assign dest ty value ih =>
    cases dest with
    | elem base index ty' =>
      exact (List.mem_append.1 h).elim (fun h ↦ List.mem_append_left _ (Operand.mem_names_of_uses h))
        fun h ↦ List.mem_append_right _ (ih h)
    | missing | literal _ _ | var _ _ => exact List.mem_append_right _ (ih h)
  | call c =>
    rcases List.mem_append.1 h with h | h
    · exact List.mem_append_left _ (Operand.mem_names_of_uses h)
    · obtain ⟨y, hy, h⟩ := List.mem_flatMap.1 h
      exact List.mem_append_right _ (List.mem_flatMap.2 ⟨y, hy, Operand.mem_names_of_uses h⟩)
  | binary op l r ty | putField l field r =>
    exact (List.mem_append.1 h).elim (fun h ↦ List.mem_append_left _ (Operand.mem_names_of_uses h))
      fun h ↦ List.mem_append_right _ (Operand.mem_names_of_uses h)
  | unary op x ty | single x | ret x ty | getField x field ty => exact Operand.mem_names_of_uses h
  | branch cond label ih => exact ih h

theorem Instr.mem_names_of_defs? (h : x.defs? = some name) : name ∈ x.names := by
  cases x with
  | assign dest ty value =>
    cases dest with
    | var name' ty' =>
      cases h
      exact List.mem_cons_self
    | missing | literal _ _ | elem _ _ _ => cases h
  | _ => cases h

theorem Instr.mem_names_of_valueOperands {y : Operand} (hy : y ∈ x.valueOperands) (h : name ∈ y.names) :
    name ∈ x.names := by
  cases x with
  | call c =>
    rcases List.mem_cons.1 hy with rfl | hy
    · exact List.mem_append_left _ h
    · exact List.mem_append_right _ (List.mem_flatMap.2 ⟨y, hy, h⟩)
  | binary op l r ty =>
    rcases List.mem_pair.1 hy with rfl | rfl
    · exact List.mem_append_left _ h
    · exact List.mem_append_right _ h
  | unary op x ty | single x | getField x field ty =>
    rw [List.mem_singleton.1 hy] at h
    exact h
  | missing | assign _ _ _ | ret _ _ | branch _ _ | goto _ | putField _ _ _ => cases hy

theorem Instr.mem_names_of_operands {y : Operand} (hy : y ∈ x.operands) (h : name ∈ y.names) :
    name ∈ x.names := by
  cases x with
  | assign dest ty value =>
    rcases List.mem_cons.1 hy with rfl | hy
    · exact List.mem_append_left _ h
    · exact List.mem_append_right _ (mem_names_of_valueOperands hy h)
  | ret x ty =>
    rw [List.mem_singleton.1 hy] at h
    exact h
  | branch cond label => exact mem_names_of_valueOperands (x := cond) hy h
  | putField object field value =>
    rcases List.mem_pair.1 hy with rfl | rfl
    · exact List.mem_append_left _ h
    · exact List.mem_append_right _ h
  | missing | goto _ | call _ | binary _ _ _ _ | unary _ _ _ | single _ | getField _ _ _ =>
    exact mem_names_of_valueOperands hy h

end IR

/-! ## Mirrored code -/

theorem eq_map_of_forall₂ {α β : Type} {R : α → β → Prop} {F : α → β} {xs : List α} {ys : List β}
    (h : List.Forall₂ R xs ys) (hF : ∀ x ∈ xs, ∀ y, R x y → y = F x) : ys = xs.map F := by
  induction h with
  | nil => rfl
  | cons hxy _ ih =>
    rw [List.map_cons, hF _ (by simp) _ hxy, ih fun x hx ↦ hF x (by simp [hx])]

section
variable {t : Symbols} {N : Prop} {R : Ty → Text → Text → Prop} {L : Text → Text → Prop}

/-! ### Each name has a partner -/

variable {x y : Operand}

theorem SimpleMirror.paired (h : SimpleMirror R x y) : ∀ name ∈ x.names, ∃ ty b, R ty name b := by
  cases h with
  | literal _ _ => exact fun _ hn ↦ nomatch hn
  | var h => simpa using ⟨_, _, h⟩

theorem OperandMirror.paired (h : OperandMirror R x y) : ∀ name ∈ x.names, ∃ ty b, R ty name b := by
  cases h with
  | simple h => exact h.paired
  | elem hb hi => exact List.forall_mem_cons.2 ⟨⟨_, _, hb⟩, hi.paired⟩

theorem ObjectMirror.paired (h : ObjectMirror R x y) : ∀ name ∈ x.names, ∃ ty b, R ty name b := by
  cases h with
  | missing => exact fun _ hn ↦ nomatch hn
  | simple h => exact h.paired

theorem paired_args {xs ys : List Operand} (h : List.Forall₂ (SimpleMirror R) xs ys) :
    ∀ name ∈ xs.flatMap Operand.names, ∃ ty b, R ty name b := by
  induction h with
  | nil => exact fun _ hn ↦ nomatch hn
  | cons hx _ ih =>
    rw [List.flatMap_cons]
    exact List.forall_mem_append.2 ⟨hx.paired, ih⟩

theorem InvokeMirror.paired {c d : Call} (h : InvokeMirror t R c d) :
    ∀ name ∈ (Instr.call c).names, ∃ ty b, R ty name b := by
  refine List.forall_mem_append.2 ?_
  cases h with
  | static _ _ h _ _ => exact ⟨fun _ hn ↦ (nomatch hn), paired_args h⟩
  | method _ hc _ _ h _ _ => exact ⟨hc.paired, paired_args h⟩

theorem CallMirror.paired {c d : Call} (h : CallMirror t R c d) :
    ∀ name ∈ (Instr.call c).names, ∃ ty b, R ty name b := by
  cases h with
  | newArray h _ => exact paired_args (.cons h .nil)
  | arrayLength h _ => exact List.forall_mem_append.2 ⟨h.paired, fun _ hn ↦ nomatch hn⟩
  | invoke h => exact h.paired

theorem ValueMirror.paired {x y : Instr} (h : ValueMirror t R x y) :
    ∀ name ∈ x.names, ∃ ty b, R ty name b := by
  cases h with
  | single h => exact h.paired
  | binary _ hl hr _ => exact List.forall_mem_append.2 ⟨hl.paired, hr.paired⟩
  | unary _ h _ => exact h.paired
  | getField h _ _ => exact h.paired
  | call h _ => exact h.paired

theorem InstrMirror.paired {x y : Instr} (h : InstrMirror t N R L x y) :
    ∀ name ∈ x.names, ∃ ty b, R ty name b := by
  cases h with
  | assignVar h _ hv => exact List.forall_mem_cons.2 ⟨⟨_, _, h⟩, hv.paired⟩
  | create h _ _ => exact List.forall_mem_cons.2 ⟨⟨_, _, h⟩, fun _ hn ↦ nomatch hn⟩
  | assignElem hb hi _ hv =>
    exact List.forall_mem_append.2 ⟨List.forall_mem_cons.2 ⟨⟨_, _, hb⟩, hi.paired⟩, hv.paired⟩
  | call h => exact h.paired
  | retVoid _ => exact fun _ hn ↦ nomatch hn
  | ret h _ => exact h.paired
  | branch h _ => exact h.paired
  | goto _ => exact fun _ hn ↦ nomatch hn
  | putField h _ hv => exact List.forall_mem_append.2 ⟨h.paired, hv.paired⟩

/-- What lowering calls for itself is invoked. -/
theorem InstrMirror.invocation {c : Call} {y : Instr} (h : InstrMirror t N R L (.call c) y) :
    (Jvm.invocation? c.kind).isSome := by
  cases h with
  | call h =>
    cases h with
    | static _ _ _ _ _ => rfl
    | method hk _ _ _ _ _ _ =>
      simp only [List.mem_cons, List.not_mem_nil, or_false] at hk
      rcases hk with rfl | rfl | rfl <;> rfl

/-! ### The code of the second run -/

section
variable {f g : Equiv.Perm Text} (hf : ∀ ty a b, R ty a b → f a = b)
include hf

variable {x y : Operand}

theorem SimpleMirror.eq_rename (h : SimpleMirror R x y) : y = x.rename f := by
  cases h with
  | literal _ _ => rfl
  | var h => rw [Operand.rename, hf _ _ _ h]

theorem OperandMirror.eq_rename (h : OperandMirror R x y) : y = x.rename f := by
  cases h with
  | simple h => exact h.eq_rename hf
  | elem hb hi => rw [Operand.rename, hf _ _ _ hb, hi.eq_rename hf]

theorem ObjectMirror.eq_rename (h : ObjectMirror R x y) : y = x.rename f := by
  cases h with
  | missing => rfl
  | simple h => exact h.eq_rename hf

theorem InvokeMirror.eq_rename {c d : Call} (h : InvokeMirror t R c d) : d = c.rename f := by
  have hargs {xs ys : List Operand} (h : List.Forall₂ (SimpleMirror R) xs ys) :
      ys = xs.map (Operand.rename f) := eq_map_of_forall₂ h fun _ _ _ hxy ↦ hxy.eq_rename hf
  cases h with
  | static _ _ h _ _ => rw [Call.rename, hargs h, Operand.rename]
  | method _ hc _ _ h _ _ => rw [Call.rename, hargs h, hc.eq_rename hf]

theorem CallMirror.eq_rename {c d : Call} (h : CallMirror t R c d) : d = c.rename f := by
  cases h with
  | newArray h _ =>
    rw [Call.rename, h.eq_rename hf]
    rfl
  | arrayLength h _ =>
    rw [Call.rename, h.eq_rename hf]
    rfl
  | invoke h => exact h.eq_rename hf

theorem ValueMirror.eq_rename {x y : Instr} (h : ValueMirror t R x y) : y = x.rename f g := by
  cases h with
  | single h => rw [Instr.rename, h.eq_rename hf]
  | binary _ hl hr _ => rw [Instr.rename, hl.eq_rename hf, hr.eq_rename hf]
  | unary _ h _ => rw [Instr.rename, h.eq_rename hf]
  | getField h _ _ => rw [Instr.rename, h.eq_rename hf]
  | call h _ => rw [Instr.rename, h.eq_rename hf]

/-- **A mirrored instruction is the instruction with other names.** -/
theorem InstrMirror.eq_rename {x y : Instr} (h : InstrMirror t N R L x y)
    (hg : ∀ l k, x.target? = some l → L l k → g l = k) : y = x.rename f g := by
  cases h with
  | assignVar h _ hv => rw [Instr.rename, Operand.rename, hf _ _ _ h, hv.eq_rename hf]
  | create h _ _ =>
    rw [Instr.rename, Operand.rename, hf _ _ _ h]
    rfl
  | assignElem hb hi _ hv =>
    rw [Instr.rename, Operand.rename, hf _ _ _ hb, hi.eq_rename hf, hv.eq_rename hf]
  | call h => rw [Instr.rename, h.eq_rename hf]
  | retVoid _ => rfl
  | ret h _ => rw [Instr.rename, h.eq_rename hf]
  | branch h hl => rw [Instr.rename, hg _ _ rfl hl, h.eq_rename hf]
  | goto hl => rw [Instr.rename, hg _ _ rfl hl]
  | putField h _ hv => rw [Instr.rename, h.eq_rename hf, hv.eq_rename hf]

end

end

/-! ## Mirrored methods -/

/-- A name of the form that temporaries have. -/
def IsTempName (name : Text) : Prop := ∃ n, name = Fresh.tempName n

theorem not_isTempName_empty : ¬ IsTempName "" := by
  rintro ⟨n, h⟩
  have hsigns := congrArg Text.signs h
  simp [Fresh.tempName] at hsigns

theorem not_isTempName_receiver : ¬ IsTempName Method.receiver := by
  rintro ⟨n, h⟩
  have hsigns := congrArg Text.signs h
  simp [Fresh.tempName, Method.receiver] at hsigns

theorem isTempName_of_declares {t : Scope} {vars vars' : VarTable} (hd : Lowering.Declares t vars)
    (ht : AddsTemps vars vars') {v : Variable} (hv : v ∈ vars'.vars) (hk : v.kind = .temp) :
    IsTempName v.name := by
  obtain ⟨temps, hvars, htemps⟩ := ht
  rw [hvars, List.mem_append] at hv
  rcases hv with hv | hv
  · rcases hd.cases hv with ⟨-, rfl⟩ | ⟨p, -, rfl⟩ | ⟨l, -, rfl⟩
    · cases hk
    · cases hk
    · cases hk
  · obtain ⟨n, ty, rfl⟩ := htemps v hv
    exact ⟨n, rfl⟩

namespace MethodMirror

variable {t : Scope} {lo lo' : Nat} {m n : Method} (h : MethodMirror t lo lo' m n)
include h

theorem sameVars : List.Forall₂ (fun v w ↦ SameVar v w ∧ PairedIn m.vars n.vars v.name w.name)
    m.vars.vars n.vars.vars := by
  refine List.forall₂_iff_get.2 ⟨h.vars.length_eq, fun i hi hj ↦ ⟨h.vars.get hi hj, i, ?_, ?_⟩⟩
  · rw [List.getElem?_map, List.getElem?_eq_getElem hi]
    rfl
  · rw [List.getElem?_map, List.getElem?_eq_getElem hj]
    rfl

/-- Variables at one place have one name, or both are temporaries. -/
theorem eq_or_temps {a b : Text} (hab : PairedIn m.vars n.vars a b) :
    a = b ∨ IsTempName a ∧ IsTempName b := by
  obtain ⟨i, ha, hb⟩ := hab
  rw [List.getElem?_map, Option.map_eq_some_iff] at ha hb
  obtain ⟨v, hv, rfl⟩ := ha
  obtain ⟨w, hw, rfl⟩ := hb
  have hsame : SameVar v w := by
    obtain ⟨hi, rfl⟩ := List.getElem?_eq_some_iff.1 hv
    obtain ⟨hj, rfl⟩ := List.getElem?_eq_some_iff.1 hw
    exact h.vars.get hi hj
  by_cases hk : v.kind = .temp
  · obtain ⟨vars, hd, ht⟩ := h.framed.vars
    obtain ⟨vars', hd', ht'⟩ := h.temps
    exact .inr ⟨isTempName_of_declares hd ht (List.mem_of_getElem? hv) hk,
      isTempName_of_declares hd' ht' (List.mem_of_getElem? hw) (hsame.kind ▸ hk)⟩
  · exact .inl (hsame.name hk)

/-- The variables of the second method, by a permutation that moves names of temporaries only. -/
theorem exists_perm : ∃ f : Equiv.Perm Text, (∀ a b, PairedIn m.vars n.vars a b → f a = b) ∧
    ∀ a, ¬ IsTempName a → f a = a := by
  let R (a b : Text) : Prop := PairedIn m.vars n.vars a b ∧ IsTempName a ∧ IsTempName b
  have hunique := PairedIn.biUnique m.vars n.vars
  have hfinite : {a | ∃ b, R a b}.Finite := by
    refine (List.finite_toSet (m.vars.vars.map Variable.name)).subset ?_
    rintro a ⟨b, ⟨i, ha, -⟩, -⟩
    exact List.mem_of_getElem? ha
  obtain ⟨f, hmoved, hfixed⟩ := MiniJava.exists_perm (R := R) (P := IsTempName)
    ⟨fun _ _ _ ha hb ↦ hunique.1 ha.1 hb.1, fun _ _ _ ha hb ↦ hunique.2 ha.1 hb.1⟩
    (fun _ _ hab ↦ hab.2) hfinite fun _ ha ↦ ha
  have hpartner {a b : Text} (hab : R a b) : f a = b := hunique.2 (hmoved a ⟨b, hab⟩).1 hab.1
  refine ⟨f, fun a b hab ↦ ?_, hfixed⟩
  rcases h.eq_or_temps hab with rfl | htemps
  · by_cases ha : IsTempName a
    · exact hpartner ⟨hab, ha, ha⟩
    · exact hfixed a ha
  · exact hpartner ⟨hab, htemps⟩

/-- Each variable that the code names is in the table. -/
theorem contains {x : Instr} (hx : x ∈ m.code) {name : Text} (hn : name ∈ x.names) :
    m.vars.contains name = true := by
  obtain ⟨y, -, hxy⟩ := exists_of_mem_left h.code hx
  obtain ⟨-, b, ⟨i, ha, -⟩, -⟩ := hxy.paired name hn
  exact VarTable.contains_iff.2 (List.mem_of_getElem? ha)

theorem check : m.check = .ok () := by
  refine h.framed.check fun x hx name hn ↦ h.contains hx ?_
  exact hn.elim Instr.mem_names_of_uses Instr.mem_names_of_defs?

/-- **The second method is the first one with other names.** -/
theorem eq_rename {f g : Equiv.Perm Text} (hf : ∀ a b, PairedIn m.vars n.vars a b → f a = b)
    (hg : ∀ l k, l ∈ m.labels.entries.map Prod.fst → LabelPair lo lo' l k → g l = k) :
    n = m.rename f g := by
  have hcode : n.code = m.code.map (Instr.rename f g) := by
    refine eq_map_of_forall₂ h.code fun x hx y hxy ↦
      hxy.eq_rename (fun _ a b hab ↦ hf a b hab.1) fun l k hl hlk ↦ ?_
    obtain ⟨-, j, -, htarget⟩ := h.framed.target hx hl
    exact hg l k (List.mem_map_of_mem (mem_of_lookup_eq_some htarget)) hlk
  have hlabels : n.labels = m.labels.rename g := by
    refine Labels.eq_of_entries (eq_map_of_forall₂ h.labels ?_)
    rintro ⟨l, i⟩ hl ⟨k, j⟩ ⟨hlk, rfl⟩
    rw [hg l k (List.mem_map_of_mem hl) hlk]
  have hvars : n.vars = m.vars.rename f := by
    refine VarTable.eq_of_vars (eq_map_of_forall₂ h.sameVars ?_)
    rintro v - w ⟨hsame, hpaired⟩
    rw [Variable.rename, hf _ _ hpaired, hsame.ty, hsame.kind, hsame.reg]
  rw [h.same, hcode, hlabels, hvars]
  rfl

end MethodMirror

end MiniJava
