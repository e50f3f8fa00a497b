import Downhill.Proofs.Pool.Liveness
import Downhill.Session.Step

/-!
# What sessions keep

Whatever registers name is there: their handles are live in the pools they belong to
(`Session.Carries`). Every instruction keeps it so and lets the pools grow only, whether it succeeds
or fails (`Work.perform_leaves`), and so it is in every session that instructions lead to
(`Session.Reached.intact`).
-/

namespace Downhill

namespace Session

variable {s t : Session} {k : Nat} {h : Handle} {v : Value}

def pool (s : Session) (k : Nat) : Pool Float := s.pools.getD k .empty

/-- Whatever a value refers to is there. -/
def Carries (s : Session) : Value → Prop
  | .expression k h => (s.pool k).Live h
  | .vector k hs => k < s.pools.size ∧ ∀ h ∈ hs, (s.pool k).Live h
  | .expressions k hs => ∀ h ∈ hs, (s.pool k).Live h
  | .pool k => k < s.pools.size
  | .datum .. | .function .. | .gradient .. | .nothing => True

structure Intact (s : Session) : Prop where
  pools : ∀ k, (s.pool k).Intact
  registers : ∀ v ∈ s.registers, s.Carries v
  held : ∀ o ∈ s.held, (s.pool o.1.2).Live o.2

/-- The session that comes next is intact, and only its pools have grown. -/
structure Lasts (s t : Session) : Prop where
  intact : t.Intact
  registers : t.registers = s.registers
  count : s.pools.size ≤ t.pools.size
  size : ∀ k, (s.pool k).size ≤ (t.pool k).size

instance : Progress Lasts where
  trans H H' := ⟨H'.intact, H'.registers.trans H.registers, Nat.le_trans H.count H'.count,
    fun k => Nat.le_trans (H.size k) (H'.size k)⟩
  rest H := ⟨H.intact, rfl, Nat.le_refl _, fun _ => Nat.le_refl _⟩

theorem Intact.rest (H : s.Intact) : s.Lasts s :=
  ⟨H, rfl, Nat.le_refl _, fun _ => Nat.le_refl _⟩

theorem Intact.empty : ({} : Session).Intact where
  pools _ := .empty
  registers _ hv := absurd hv (Array.not_mem_empty _)
  held _ ho := absurd ho List.not_mem_nil

theorem lt_of_live (H : (s.pool k).Live h) : k < s.pools.size := by
  by_contra hk
  rw [pool, Array.getD_eq_getD_getElem?, Array.getElem?_eq_none (Nat.le_of_not_lt hk)] at H
  obtain ⟨h0, hlt⟩ := Pool.live_iff.mp H
  exact absurd (Int.lt_of_le_of_lt h0 hlt) (by simp [Pool.size, Pool.empty])

theorem Carries.of_size (H : s.Carries v) (hcount : s.pools.size ≤ t.pools.size)
    (hsize : ∀ k, (s.pool k).size ≤ (t.pool k).size) : t.Carries v := by
  cases v with
  | expression k h => exact Pool.Live.mono H (hsize k)
  | vector k hs => exact ⟨Nat.lt_of_lt_of_le H.1 hcount, fun h hh => (H.2 h hh).mono (hsize k)⟩
  | expressions k hs => exact fun h hh => (H h hh).mono (hsize k)
  | pool k => exact Nat.lt_of_lt_of_le H hcount
  | datum | function | gradient | nothing => trivial

theorem Carries.mono (H : s.Carries v) (hst : s.Lasts t) : t.Carries v :=
  H.of_size hst.count hst.size

/-- What registers and held nodes need of a session is that its pools are no smaller. -/
theorem Intact.lasts (H : s.Intact) (hpools : ∀ k, (t.pool k).Intact)
    (hregisters : t.registers = s.registers) (hheld : t.held = s.held)
    (hcount : s.pools.size ≤ t.pools.size) (hsize : ∀ k, (s.pool k).size ≤ (t.pool k).size) :
    s.Lasts t := by
  refine ⟨⟨hpools, fun v hv => ?_, fun o ho => ?_⟩, hregisters, hcount, hsize⟩
  · exact (H.registers v (hregisters ▸ hv)).of_size hcount hsize
  · exact (H.held o (hheld ▸ ho)).mono (hsize _)

/-- A session in which one of the pools is another one. -/
def replace (s : Session) (k : Nat) (p : Pool Float) : Session :=
  { s with pools := s.pools.setIfInBounds k p }

theorem pool_replace (s : Session) (k j : Nat) (p : Pool Float) :
    (s.replace k p).pool j = if j = k ∧ k < s.pools.size then p else s.pool j := by
  simp only [pool, replace, Array.getD_eq_getD_getElem?, Array.getElem?_setIfInBounds]
  by_cases hj : k = j
  · subst hj
    by_cases hk : k < s.pools.size
    · simp [hk]
    · simp [hk]
  · have hj' : ¬j = k := fun he => hj he.symm
    simp [hj, hj']

theorem replace_pool (s : Session) (k : Nat) : s.replace k (s.pool k) = s := by
  have hpools : s.pools.setIfInBounds k (s.pool k) = s.pools := by
    refine Array.ext (Array.size_setIfInBounds) fun j hj hj' => ?_
    rw [Array.getElem_setIfInBounds hj']
    split
    · rename_i he
      subst he
      simp [pool, hj']
    · rfl
  rw [replace, hpools]

theorem Intact.replace (H : s.Intact) {p : Pool Float} (hp : (s.pool k).Lasts p) :
    s.Lasts (s.replace k p) := by
  refine H.lasts (fun j => ?_) rfl rfl (by simp [Session.replace]) fun j => ?_
  · rw [pool_replace]
    split
    · exact hp.intact
    · exact H.pools j
  · rw [pool_replace]
    split
    · rename_i hj
      rw [hj.1]
      exact hp.size
    · exact Nat.le_refl _

end Session

namespace Work

open Session

variable {s t : Session} {k : Nat} {β γ : Type} {b : Build Float β} {Q : β → Pool Float → Prop}

/-- What work does to an intact session. -/
abbrev Leaves (s : Session) (w : Work β) (Q : β → Session → Prop) : Prop := Runs Session.Lasts s w Q

/-! ## Looking -/

theorem quiet_register (r : Register) : Quiet (register r) := by
  refine .bind .get fun s => ?_
  split
  · exact .pure _
  · exact .throw _

theorem register_leaves (hs : s.Intact) (r : Register) :
    Leaves s (register r) fun v t => t.Carries v := by
  refine .get_bind ?_
  split
  · rename_i v hv
    exact .pure hs.rest (hs.registers v (Array.mem_of_getElem? hv))
  · exact .throw hs.rest

theorem quiet_here : Quiet here := .bind .get fun _ => .pure _

theorem here_leaves (hs : s.Intact) : Leaves s here fun _ _ => True :=
  .of_quiet quiet_here hs.rest fun _ => trivial

theorem quiet_poolOf (r : Register) : Quiet (poolOf r) := by
  refine .bind (quiet_register r) fun v => ?_
  cases v.pool? with
  | none => exact .throw _
  | some k => exact .pure k

theorem poolOf_leaves (hs : s.Intact) (r : Register) :
    Leaves s (poolOf r) fun k t => k < t.pools.size := by
  refine (register_leaves hs r).bind fun {v t} ht hv => ?_
  have hrest : t.Lasts t := Progress.rest ht
  cases v with
  | expression k h => exact .pure hrest (lt_of_live hv)
  | vector k hs => exact .pure hrest hv.1
  | pool k => exact .pure hrest hv
  | expressions | datum | function | gradient | nothing => exact .throw hrest

theorem quiet_expressionIn (r : Register) : Quiet (expressionIn r) := by
  refine .bind (quiet_register r) fun v => ?_
  cases v with
  | expression k h => exact .pure (k, h)
  | vector | pool | expressions | datum | function | gradient | nothing => exact .throw _

theorem expressionIn_leaves (hs : s.Intact) (r : Register) :
    Leaves s (expressionIn r) fun e t => (t.pool e.1).Live e.2 := by
  refine (register_leaves hs r).bind fun {v t} ht hv => ?_
  have hrest : t.Lasts t := Progress.rest ht
  cases v with
  | expression k h => exact .pure hrest hv
  | vector | pool | expressions | datum | function | gradient | nothing => exact .throw hrest

theorem vectorIn_leaves (hs : s.Intact) (r : Register) :
    Leaves s (vectorIn r) fun v t => v.1 < t.pools.size := by
  refine (register_leaves hs r).bind fun {v t} ht hv => ?_
  have hrest : t.Lasts t := Progress.rest ht
  cases v with
  | vector k hs => exact .pure hrest hv.1
  | expression | pool | expressions | datum | function | gradient | nothing => exact .throw hrest

/-! ## Working in a pool -/

theorem run_inPool (s : Session) (k : Nat) (b : Build Float β) :
    (inPool k b).run s = ((b.run (s.pool k)).1, s.replace k (b.run (s.pool k)).2) := by
  have htake : (modifyGet fun s : Session => (s.pools.getD k .empty,
      { s with pools := s.pools.setIfInBounds k .empty }) : Work (Pool Float)).run s =
      (.ok (s.pool k), s.replace k .empty) := rfl
  rw [inPool, run_bind_of_ok htake]
  rcases b.run (s.pool k) with ⟨e | v, q⟩
  · refine (run_bind_of_ok (v := ()) (t := (s.replace k .empty).replace k q) rfl).trans ?_
    simp only [Session.replace, Array.setIfInBounds_setIfInBounds]
    rfl
  · refine (run_bind_of_ok (v := ()) (t := (s.replace k .empty).replace k q) rfl).trans ?_
    simp only [Session.replace, Array.setIfInBounds_setIfInBounds]
    rfl

theorem inPool_leaves (hs : s.Intact) (hk : k < s.pools.size)
    (H : Build.Leaves (s.pool k) b Q) : Leaves s (inPool k b) fun v t => Q v (t.pool k) := by
  have hpool : (s.replace k (b.run (s.pool k)).2).pool k = (b.run (s.pool k)).2 := by
    rw [pool_replace, if_pos ⟨rfl, hk⟩]
  constructor
  · rw [run_inPool]
    exact hs.replace H.leads
  · intro v hv
    rw [run_inPool] at hv ⊢
    rw [hpool]
    exact H.result hv

theorem atomic_inPool (H : Atomic (s.pool k) b) : Atomic s (inPool k b) := by
  intro e t hr
  rw [run_inPool] at hr
  cases hb : b.run (s.pool k) with
  | mk result q =>
    rw [hb] at hr
    cases hr
    rw [H e q hb, replace_pool]

/-! ## Operands -/

theorem newPool_leaves (hs : s.Intact) : Leaves s newPool fun k t => k < t.pools.size := by
  have hpool (k : Nat) : Session.pool { s with pools := s.pools.push .empty } k = s.pool k := by
    simp only [pool, Array.getD_eq_getD_getElem?, Array.getElem?_push]
    split
    · rename_i he
      simp [he]
    · rfl
  refine .of_ok (t := { s with pools := s.pools.push .empty }) rfl
    (hs.lasts (fun k => ?_) rfl rfl (by simp) fun k => ?_) (by simp)
  · exact hpool k ▸ hs.pools k
  · exact hpool k ▸ Nat.le_refl _

theorem hold_leaves (hs : s.Intact) (hk : k < s.pools.size) (origin : Register) (value : Float) :
    Leaves s (hold k origin value) fun h t => (t.pool k).Live h := by
  refine .get_bind ?_
  split
  · rename_i h hh
    obtain ⟨l, r, hl, _⟩ := List.lookup_eq_some_iff.mp hh
    exact .pure hs.rest (hs.held ((origin, k), h) (hl ▸ List.mem_append_right l List.mem_cons_self))
  · refine (inPool_leaves hs hk (Build.constant_leaves (hs.pools k) value)).bind
      fun {h t} ht hh => ?_
    have hlater : t.Lasts { t with held := ((origin, k), h) :: t.held } :=
      ⟨⟨ht.intact.pools, ht.intact.registers, List.forall_mem_cons.mpr ⟨hh, ht.intact.held⟩⟩, rfl,
        Nat.le_refl _, fun _ => Nat.le_refl _⟩
    exact .of_ok rfl hlater hh

/-- Data are never read as expressions. -/
def Reads (read : Datum → Operand Float) : Prop := ∀ d h, read d ≠ .expression h

theorem reads_operand : Reads Datum.operand := by
  intro d h he
  rw [Datum.operand, Datum.rounded] at he
  split at he
  · split at he <;> cases he
  · cases he

theorem reads_operandOf (op : BinaryOp) : Reads (Datum.operandOf op) := by
  intro d h he
  unfold Datum.operandOf at he
  split at he
  · rw [Datum.rounded] at he
    split at he <;> cases he
  · exact reads_operand d h he

/-- A value is an operand as it is, unless it is a NaN that is to be held. -/
theorem operandIn_eq (k : Nat) (read : Datum → Operand Float) (v : Value) :
    operandIn k read v = (pure (v.operand k read) : Work (Operand Float)) ∨
      ∃ d origin value, v = .datum d (some origin) ∧
        operandIn k read v = (do return .expression (← hold k origin value) :
          Work (Operand Float)) := by
  unfold operandIn
  split
  · rename_i origin value hv
    split
    · exact .inr ⟨_, _, value, rfl, rfl⟩
    · exact .inl (by rw [hv])
  · exact .inl rfl

theorem operandIn_leaves {read : Datum → Operand Float} {v : Value} (hs : s.Intact)
    (hk : k < s.pools.size) (hread : Reads read) (hv : s.Carries v) :
    Leaves s (operandIn k read v) fun u t => u.All (t.pool k).Live := by
  rcases operandIn_eq k read v with he | ⟨d, origin, value, rfl, he⟩
  · rw [he]
    refine .pure hs.rest ?_
    cases v with
    | expression j h =>
      rw [Value.operand]
      split
      · rename_i hj
        exact hj ▸ hv
      · trivial
    | datum d origin =>
      rw [Value.operand]
      cases hd : read d with
      | expression h => exact absurd hd (hread d h)
      | foreign | number | tooLarge | other => trivial
    | vector | pool | expressions | function | gradient | nothing => trivial
  · rw [he]
    exact (hold_leaves hs hk origin value).bind fun ht hh => .pure (Progress.rest ht) hh

/-! ## Operators -/

/-- An operator between two values, in a given pool. -/
def combineIn (k : Nat) (op : BinaryOp) (u v : Value) : Work Value := do
  let a ← operandIn k (Datum.operandOf op) u
  let b ← operandIn k (Datum.operandOf op) v
  return .expression k (← inPool k (Build.combine op a b))

/-- An operator finds a pool, or looks no further. -/
theorem combine_eq (op : BinaryOp) (u v : Value) :
    (∃ k h, (u = .expression k h ∨ v = .expression k h) ∧ combine op u v = combineIn k op u v) ∨
      combine op u v = throw .uncombinable := by
  cases u with
  | expression k h => exact .inl ⟨k, h, .inl rfl, rfl⟩
  | vector | pool | expressions | datum | function | gradient | nothing =>
    cases v with
    | expression k h => exact .inl ⟨k, h, .inr rfl, rfl⟩
    | vector | pool | expressions | datum | function | gradient | nothing => exact .inr rfl

theorem combineIn_leaves {u v : Value} (hs : s.Intact) (hk : k < s.pools.size) (op : BinaryOp)
    (hu : s.Carries u) (hv : s.Carries v) :
    Leaves s (combineIn k op u v) fun w t => t.Carries w := by
  refine (operandIn_leaves hs hk (reads_operandOf op) hu).bind fun {a t} hst ha => ?_
  have hkt := Nat.lt_of_lt_of_le hk hst.count
  refine (operandIn_leaves hst.intact hkt (reads_operandOf op) (hv.mono hst)).bind
    fun {b r} htr hb => ?_
  have hkr := Nat.lt_of_lt_of_le hkt htr.count
  have ha' : a.All (r.pool k).Live := ha.imp fun hh => hh.mono (htr.size k)
  refine (inPool_leaves htr.intact hkr (Build.combine_leaves (htr.intact.pools k) op ha' hb)).bind
    fun hru hh => ?_
  exact .pure (Progress.rest hru) hh

theorem lt_of_carries {u v : Value} (hu : s.Carries u) (hv : s.Carries v)
    (H : u = .expression k h ∨ v = .expression k h) : k < s.pools.size := by
  rcases H with rfl | rfl
  · exact lt_of_live hu
  · exact lt_of_live hv

theorem combine_leaves {u v : Value} (hs : s.Intact) (op : BinaryOp) (hu : s.Carries u)
    (hv : s.Carries v) : Leaves s (combine op u v) fun w t => t.Carries w := by
  rcases combine_eq op u v with ⟨k, h, hkh, he⟩ | he
  · have hk : k < s.pools.size := lt_of_carries hu hv hkh
    rw [he]
    exact combineIn_leaves hs hk op hu hv
  · rw [he]
    exact .throw hs.rest

theorem negate_leaves (hs : s.Intact) (d : Datum) (origin : Option Register) :
    Leaves s (negate d origin) fun v t => t.Carries v := by
  unfold negate
  split
  · exact (here_leaves hs).bind fun ht _ => .pure (Progress.rest ht) trivial
  · exact .throw hs.rest

/-- A value from one builder in a pool that is there. -/
theorem inPool_expression_leaves {b : Build Float Handle} (hs : s.Intact) (hk : k < s.pools.size)
    (H : Build.Leaves (s.pool k) b fun h p => p.Live h) :
    Leaves s (do return .expression k (← inPool k b)) fun v t => t.Carries v :=
  (inPool_leaves hs hk H).bind fun ht hh => .pure (Progress.rest ht) hh

theorem apply_leaves (hs : s.Intact) (op : UnaryOp) (hv : s.Carries v) :
    Leaves s (apply op v) fun w t => t.Carries w := by
  fun_cases apply op v with
  | case1 _ k h =>
    exact inPool_expression_leaves hs (lt_of_live hv) (Build.unary_leaves (hs.pools k) op h)
  | case2 d origin => exact negate_leaves hs d origin
  | case3 => exact (here_leaves hs).bind fun ht _ => .pure (Progress.rest ht) trivial
  | case4 => exact .throw hs.rest
  | case5 => exact .throw hs.rest

theorem iterate_leaves {f : Value → Work Value}
    (hf : ∀ {t v}, s.Lasts t → t.Carries v → Leaves t (f v) fun w u => u.Carries w) {n : Nat}
    (hst : s.Lasts t) (hv : t.Carries v) : Leaves t (iterate f n v) fun w u => u.Carries w := by
  induction n generalizing t v with
  | zero => exact .pure (Progress.rest hst) hv
  | succ n ih => exact (hf hst hv).bind fun htu hw => ih (Progress.trans hst htu) hw

/-! ## Elements and slices -/

/-- The expressions that a value lists, and their pool. -/
def listed : Value → Option (Nat × Array Handle)
  | .vector k hs => some (k, hs)
  | .expressions k hs => some (k, hs.toArray)
  | _ => none

theorem live_of_listed {hs : Array Handle} (H : s.Carries v) (hl : listed v = some (k, hs)) :
    ∀ h ∈ hs, (s.pool k).Live h := by
  cases v with
  | vector j gs =>
    cases hl
    exact H.2
  | expressions j gs =>
    cases hl
    exact fun h hh => H h (List.mem_toArray.mp hh)
  | expression | pool | datum | function | gradient | nothing => cases hl

theorem elementOf_eq (v : Value) (i : Int) :
    elementOf v i = match listed v with
      | some (k, hs) =>
        match place? hs.size i with
        | some j => return .expression k (hs.getD j 0)
        | none => throw .noSuchElement
      | none => throw .uncombinable := by
  cases v with
  | vector k hs => cases hj : place? hs.size i <;> simp only [elementOf, listed, pure_bind, hj]
  | expressions k hs =>
    cases hj : place? hs.toArray.size i <;> simp only [elementOf, listed, pure_bind, hj]
  | expression | pool | datum | function | gradient | nothing => rfl

theorem elementOf_leaves (hs : s.Intact) (i : Int) (hv : s.Carries v) :
    Leaves s (elementOf v i) fun w t => t.Carries w := by
  rw [elementOf_eq]
  split
  · rename_i k gs hl
    split
    · rename_i j hj
      have hlt : j < gs.size := lt_of_place?_eq_some hj
      refine .pure hs.rest ?_
      rw [Array.getD_eq_getD_getElem?, Array.getElem?_eq_getElem hlt, Option.getD_some]
      exact live_of_listed hv hl _ (Array.getElem_mem hlt)
    · exact .throw hs.rest
  · exact .throw hs.rest

theorem sliceOf_eq (v : Value) (start stop : Option Int) :
    sliceOf v start stop = match listed v with
      | some (k, hs) =>
        return .expressions k (hs.extract ((start.map (sliceBound hs.size)).getD 0)
          ((stop.map (sliceBound hs.size)).getD hs.size)).toList
      | none => throw .uncombinable := by
  cases v <;> rfl

theorem sliceOf_leaves (hs : s.Intact) (start stop : Option Int) (hv : s.Carries v) :
    Leaves s (sliceOf v start stop) fun w t => t.Carries w := by
  rw [sliceOf_eq]
  split
  · rename_i k gs hl
    refine .pure hs.rest fun h hh => live_of_listed hv hl h ?_
    obtain ⟨j, _, hj⟩ := Array.mem_extract_iff_getElem.mp (Array.mem_toList_iff.mp hh)
    exact hj ▸ Array.getElem_mem _
  · exact .throw hs.rest

/-! ## Instructions -/

theorem vars_leaves (hs : s.Intact) (hk : k < s.pools.size) (dim : Int) :
    Leaves s (do return .vector k (← inPool k (Build.vars dim))) fun v t => t.Carries v :=
  (inPool_leaves hs hk (Build.vars_leaves (hs.pools k) dim)).bind fun ht hh =>
    .pure (Progress.rest ht) ⟨Nat.lt_of_lt_of_le hk ht.count, hh⟩

theorem vector_leaves (hs : s.Intact) (dim : Int) :
    Leaves s (do let k ← newPool; return .vector k (← inPool k (Build.vars dim)))
      fun v t => t.Carries v :=
  (newPool_leaves hs).bind fun ht hk => vars_leaves ht.intact hk dim

/-- A value that is compiled from a root, in the pool of a vector. -/
theorem rooted_leaves {compiled : Nat → Operand Float → Build Float β} {value : Nat → β → Value}
    (hs : s.Intact) (v e : Register)
    (H : ∀ {p dim u}, p.Intact → u.All p.Live → Build.Leaves p (compiled dim u) fun _ _ => True)
    (hvalue : ∀ {t : Session} {k r}, t.Carries (value k r)) :
    Leaves s (do
      let (k, xs) ← vectorIn v
      let e ← operandIn k Datum.operand (← register e)
      return value k (← inPool k (compiled xs.size e))) fun v t => t.Carries v := by
  refine (vectorIn_leaves hs v).bind fun {xs t} ht hxs => ?_
  refine (register_leaves ht.intact e).bind fun {u t'} ht' hu => ?_
  have hk := Nat.lt_of_lt_of_le hxs ht'.count
  refine (operandIn_leaves ht'.intact hk reads_operand hu).bind fun {o r} hr ho => ?_
  have hkr := Nat.lt_of_lt_of_le hk hr.count
  refine (inPool_leaves hr.intact hkr (H (hr.intact.pools xs.1) ho)).bind fun hr' _ => ?_
  exact .pure (Progress.rest hr') hvalue

/-- Every value that an instruction gives a register is carried by the session. -/
theorem value_leaves {i : Instruction} {w : Work Value} (hs : s.Intact) (hw : value? i = some w) :
    Leaves s w fun v t => t.Carries v := by
  cases i with
  | datum d =>
    cases hw
    exact (here_leaves hs).bind fun ht _ => .pure (Progress.rest ht) trivial
  | entry d =>
    cases hw
    exact .pure hs.rest trivial
  | «variable» i =>
    cases hw
    exact (register_leaves hs 0).bind fun ht hv => elementOf_leaves ht.intact i hv
  | element v i =>
    cases hw
    exact (register_leaves hs v).bind fun ht hv => elementOf_leaves ht.intact i hv
  | slice v start stop =>
    cases hw
    exact (register_leaves hs v).bind fun ht hv => sliceOf_leaves ht.intact start stop hv
  | unary op a =>
    cases hw
    exact (register_leaves hs a).bind fun ht hv => apply_leaves ht.intact op hv
  | binary op a b =>
    cases hw
    exact (register_leaves hs a).bind fun ht hu => (register_leaves ht.intact b).bind fun ht' hv =>
      combine_leaves ht'.intact op (hu.mono ht') hv
  | positive a =>
    cases hw
    refine (register_leaves hs a).bind fun {v t} ht hv => ?_
    have hrest : t.Lasts t := Progress.rest ht
    cases v with
    | expression k h => exact .pure hrest hv
    | datum d origin =>
      dsimp only
      split
      · exact .pure hrest trivial
      · exact .throw hrest
    | vector | pool | expressions | function | gradient | nothing => exact .throw hrest
  | chain op a n =>
    cases hw
    exact (register_leaves hs a).bind fun ht hv =>
      iterate_leaves (fun ht => apply_leaves ht.intact op) (Progress.rest ht) hv
  | «repeated» op a b n =>
    cases hw
    refine (register_leaves hs b).bind fun ht hv => ?_
    refine (register_leaves ht.intact a).bind fun ht' hu => ?_
    exact iterate_leaves (fun hr hw => combine_leaves hr.intact op hw ((hv.mono ht').mono hr))
      (Progress.rest ht') hu
  | expression v a =>
    cases hw
    refine (poolOf_leaves hs v).bind fun {k t} ht hk => ?_
    refine (register_leaves ht.intact a).bind fun {u t'} ht' hu => ?_
    have hk' := Nat.lt_of_lt_of_le hk ht'.count
    refine (operandIn_leaves ht'.intact hk' reads_operand hu).bind fun {o r} hr ho => ?_
    exact inPool_expression_leaves hr.intact (Nat.lt_of_lt_of_le hk' hr.count)
      (Build.expression_leaves (hr.intact.pools k) ho)
  | vector dim =>
    cases hw
    dsimp only
    split
    · exact .throw hs.rest
    · exact vector_leaves hs dim
  | vectorIn v dim =>
    cases hw
    exact (poolOf_leaves hs v).bind fun ht hk => vars_leaves ht.intact hk dim
  | pool =>
    cases hw
    rw [map_eq_pure_bind]
    exact (newPool_leaves hs).bind fun ht hk => .pure (Progress.rest ht) hk
  | differentiate e i =>
    cases hw
    exact (expressionIn_leaves hs e).bind fun {e t} ht he =>
      inPool_expression_leaves ht.intact (lt_of_live he)
        (Build.differentiateBy_leaves (ht.intact.pools e.1) e.2 i)
  | gradient e v =>
    cases hw
    refine (expressionIn_leaves hs e).bind fun {e t} ht he => ?_
    refine (vectorIn_leaves ht.intact v).bind fun {xs t'} ht' hxs => ?_
    have he' : (t'.pool e.1).Live e.2 := he.mono (ht'.size e.1)
    dsimp only
    split
    · exact .throw (Progress.rest ht')
    · have hk := lt_of_live he'
      refine (inPool_leaves ht'.intact hk
        (Build.gradient_leaves (ht'.intact.pools e.1) e.2 _)).bind fun hr hds => ?_
      exact .pure (Progress.rest hr) hds
  | function v e =>
    cases hw
    exact rooted_leaves hs v e (fun hp hu => Build.function_leaves hp hu _) trivial
  | compiledGradient v e =>
    cases hw
    exact rooted_leaves hs v e (fun hp hu => Build.compiledGradient_leaves hp hu _) trivial
  | poolConstant v d =>
    cases hw
    refine (poolOf_leaves hs v).bind fun {k t} ht hk => ?_
    split
    · exact inPool_expression_leaves ht.intact hk (Build.constant_leaves (ht.intact.pools k) _)
    · exact .throw (Progress.rest ht)
  | poolVariable v i =>
    cases hw
    exact (poolOf_leaves hs v).bind fun {k t} ht hk =>
      inPool_expression_leaves ht.intact hk (Build.var_leaves (ht.intact.pools k) i)
  | poolUnary v op a =>
    cases hw
    exact (poolOf_leaves hs v).bind fun {k t} ht hk =>
      inPool_expression_leaves ht.intact hk (Build.unaryNamed_leaves (ht.intact.pools k) op a)
  | poolBinary v op a b =>
    cases hw
    exact (poolOf_leaves hs v).bind fun {k t} ht hk =>
      inPool_expression_leaves ht.intact hk (Build.binaryNamed_leaves (ht.intact.pools k) op a b)
  | text | describe | node | poolNode | poolText | isConstant | poolConstantIs | same | sameKey
  | cached | cachedCount | size | length | dimension | reachable | poolReachable | call | batch =>
    cases hw

/-! ## Answers -/

theorem quiet_liftExcept (r : Except ExpressionError β) : Quiet (liftExcept r) := by
  cases r with
  | ok v => exact .pure v
  | error e => exact .throw e

theorem quiet_ask (k : Nat) (f : Pool Float → β) : Quiet (ask k f) := .bind .get fun _ => .pure _

/-- Every value can be presented. -/
theorem run_present (s : Session) (v : Value) : ∃ a, (present v).run s = (.ok a, s) := by
  cases v with
  | datum d origin =>
    rw [present]
    split
    · split <;> exact ⟨_, rfl⟩
    · exact ⟨_, rfl⟩
  | expression | vector | pool | expressions | function | gradient | nothing => exact ⟨_, rfl⟩

theorem quiet_textOf (described : Bool) (v : Value) : Quiet (textOf described v) := by
  cases v with
  | expression k h =>
    exact .bind (quiet_ask k _) fun _ => .bind (quiet_liftExcept _) fun _ => .pure _
  | vector | nothing => exact .pure _
  | pool | expressions | datum | function | gradient => exact .throw _

theorem quiet_nodeAt (k : Nat) (h : Handle) : Quiet (nodeAt k h) := by
  refine .bind (quiet_ask k _) fun n => ?_
  cases n with
  | none => exact .throw _
  | some n => exact .pure n

theorem quiet_holdsAt (k : Nat) (h : Handle) (value : Option Datum) :
    Quiet (holdsAt k h value) := by
  refine .bind (.bind (quiet_nodeAt k h) fun _ => .pure _) fun _ => ?_
  refine .bind (quiet_ask k _) fun c => ?_
  split <;> exact .pure _

theorem quiet_reachableFrom (k : Nat) (roots : List Handle) : Quiet (reachableFrom k roots) :=
  .bind (.forM (fun h => .bind (quiet_nodeAt k h) fun _ => .pure _) roots) fun _ => quiet_ask k _

theorem quiet_tensor (n : Nested Datum) : Quiet (tensor n) := quiet_liftExcept _

theorem quiet_query (i : Instruction) : Quiet (query i) := by
  cases i with
  | text e => exact .bind (quiet_register e) fun _ => .bind (quiet_textOf _ _) fun _ => .pure _
  | describe e => exact .bind (quiet_register e) fun _ => .bind (quiet_textOf _ _) fun _ => .pure _
  | node e => exact .bind (quiet_expressionIn e) fun _ => .bind (quiet_nodeAt _ _) fun _ => .pure _
  | poolNode v h => exact .bind (quiet_poolOf v) fun _ => .bind (quiet_nodeAt _ h) fun _ => .pure _
  | poolText v h =>
    exact .bind (quiet_poolOf v) fun _ => .bind (.bind (quiet_nodeAt _ h) fun _ => .pure _)
      fun _ => .bind (quiet_ask _ _) fun _ => .bind (quiet_liftExcept _) fun _ => .pure _
  | isConstant e =>
    exact .bind (quiet_expressionIn e) fun _ => .bind (quiet_ask _ _) fun _ => .pure _
  | poolConstantIs v h value =>
    exact .bind (quiet_poolOf v) fun _ => .bind (quiet_holdsAt _ h value) fun _ => .pure _
  | same a b => exact .bind (quiet_register a) fun _ => .bind (quiet_register b) fun _ => .pure _
  | sameKey a b =>
    refine .bind (quiet_register a) fun _ => .bind (quiet_register b) fun _ => ?_
    dsimp only
    split
    · exact .throw _
    · exact .pure _
  | cached e i =>
    refine .bind (quiet_expressionIn e) fun e => ?_
    dsimp only
    split
    · exact .pure _
    · exact .bind (quiet_ask _ _) fun _ => .pure _
  | cachedCount v => exact .bind (quiet_poolOf v) fun _ => .bind (quiet_ask _ _) fun _ => .pure _
  | size v => exact .bind (quiet_poolOf v) fun _ => .bind (quiet_ask _ _) fun _ => .pure _
  | length v =>
    refine .bind (quiet_register v) fun v => ?_
    cases v with
    | vector | expressions => exact .pure _
    | pool k => exact .bind (quiet_ask k _) fun _ => .pure _
    | expression | datum | function | gradient | nothing => exact .throw _
  | dimension v =>
    refine .bind (quiet_register v) fun v => ?_
    cases v with
    | vector | function | gradient => exact .pure _
    | expression | pool | expressions | datum | nothing => exact .throw _
  | reachable v roots =>
    refine .bind (quiet_poolOf v) fun k => .bind (.mapM (fun r => ?_) roots) fun hs => ?_
    · exact .bind (quiet_expressionIn r) fun _ => .pure _
    · exact .bind (quiet_reachableFrom k hs) fun _ => .pure _
  | poolReachable v roots =>
    exact .bind (quiet_poolOf v) fun _ => .bind (quiet_reachableFrom _ roots) fun _ => .pure _
  | call f point =>
    refine .bind (quiet_register f) fun v => ?_
    cases v with
    | function | gradient =>
      exact .bind (quiet_tensor point) fun _ => .bind (quiet_liftExcept _) fun _ => .pure _
    | expression | vector | pool | expressions | datum | nothing => exact .throw _
  | batch f points =>
    refine .bind (quiet_register f) fun v => ?_
    cases v with
    | function | gradient =>
      exact .bind (quiet_tensor points) fun _ => .bind (quiet_liftExcept _) fun _ => .pure _
    | expression | vector | pool | expressions | datum | nothing => exact .throw _
  | datum | entry | «variable» | element | slice | unary | binary | positive | chain | «repeated»
  | expression | vector | vectorIn | pool | differentiate | gradient | function | compiledGradient
  | poolConstant | poolVariable | poolUnary | poolBinary => exact .throw _

theorem perform_leaves (hs : s.Intact) (i : Instruction) :
    Leaves s (perform i) fun r t => t.Carries r.1 := by
  unfold perform
  split
  · rename_i w hw
    refine (value_leaves hs hw).bind fun {v t} ht hv => ?_
    obtain ⟨a, ha⟩ := run_present t v
    exact .of_ok ((run_bind_of_ok ha).trans rfl) (Progress.rest ht) hv
  · refine .of_quiet (.bind (quiet_query i) fun _ => .pure _) hs.rest fun {r} hr => ?_
    rcases hq : (query i).run s with ⟨e | a, t⟩
    · cases (run_bind_of_error hq).symm.trans hr
    · cases (run_bind_of_ok hq).symm.trans hr
      trivial

end Work

/-! ## Steps -/

namespace Session

variable {s t : Session} {v : Value}

/-- A session that instructions lead to, from nothing. -/
def Reached (s : Session) : Prop := ∃ is, s = (({} : Session).steps is).2

theorem Lasts.push (H : s.Lasts t) (hv : t.Carries v) :
    { t with registers := t.registers.push v : Session }.Intact where
  pools := H.intact.pools
  registers w hw := by
    rcases Array.mem_push.mp hw with hw | rfl
    · exact H.intact.registers w hw
    · exact hv
  held := H.intact.held

theorem Intact.step (H : s.Intact) (i : Instruction) : (s.step i).2.Intact := by
  have hw := Work.perform_leaves H i
  unfold Session.step
  split
  rename_i result t hr
  rcases result with e | ⟨v, answer⟩
  · exact (hw.error hr).push trivial
  · obtain ⟨ht, hv⟩ := hw.ok hr
    exact ht.push hv

theorem Intact.steps (H : s.Intact) (is : List Instruction) : (s.steps is).2.Intact := by
  induction is generalizing s with
  | nil => exact H
  | cons i is ih => exact ih (H.step i)

theorem Reached.intact (H : s.Reached) : s.Intact := by
  obtain ⟨is, rfl⟩ := H
  exact Intact.empty.steps is

end Session

end Downhill
