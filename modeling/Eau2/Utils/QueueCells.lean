import Eau2.Base.Links
import Eau2.Base.Served
import Eau2.Base.Slots
import Eau2.Serial.Serializer

/-!
# Queues

`utils/queue.h` with its nodes on one heap, and queues by number.  `Node::setNext` is
declared to return a `Node*` and does not return one; whether such a function `returns`
all the same, as it does where nothing is optimized, is a parameter.

* `Shows`: the lists that the queues are.
* `Shows.answer`: what a call does, unless it ends the program.
* `refines_iff`: **queues are first in, first out exactly as long as `setNext` returns or is
  not called.**
-/

namespace Eau2

structure QueueObj where
  front : Option Nat
  back : Option Nat
  len : SizeT
  deriving DecidableEq, Repr

namespace QueueObj

variable {α : Type}

/-- The nodes, whose value may be a `nullptr`. -/
abbrev Nodes (α : Type) := Links (Option α)

def new : QueueObj := ⟨none, none, 0⟩

def size (q : QueueObj) : SizeT := q.len

/-- What a `Node*` points to. -/
def deref (p : Nat) (h : Nodes α) : Except Halt (Link (Option α)) :=
  match h.get p with
  | some n => .ok n
  | none => .error .undefined

/-- There is memory for one more node of 32 bytes. -/
def Room (h : Nodes α) : Prop := (h.addresses.length + 1) * 32 < 2 ^ 64

instance (h : Nodes α) : Decidable (Room h) := inferInstanceAs (Decidable (_ < _))

def newNode (val : Option α) (h : Nodes α) : Except Halt (Nat × Nodes α) :=
  if Room h then .ok (h.alloc ⟨val, none⟩) else .error .exit

/-- `setNext`, behind whose end the program may not get. -/
def setNext (returns : Bool) (p : Nat) (newNext : Option Nat) (h : Nodes α) :
    Except Halt (Nodes α) := do
  let n ← deref p h
  if returns then .ok (h.set p (some { n with next := newNext })) else .error .undefined

/-- `setValue`: the old value. -/
def setValue (p : Nat) (newVal : Option α) (h : Nodes α) : Except Halt (Option α × Nodes α) := do
  let n ← deref p h
  .ok (n.val, h.set p (some { n with val := newVal }))

/-- `delete` of a `Node*`, and the values that are deleted with the nodes: that of a node comes
first, and its own memory goes last.  The number bounds how deep `~Node` is called. -/
def delete : Nat → Option Nat → Nodes α → Except Halt (List α × Nodes α)
  | _, none, h => .ok ([], h)
  | 0, some _, _ => .error .undefined
  | fuel + 1, some p, h => do
    let n ← deref p h
    let (os, h) ← delete fuel n.next h
    let _ ← deref p h
    .ok (n.val.toList ++ os, h.set p none)

def push (returns : Bool) (o : Option α) (q : QueueObj) (h : Nodes α) :
    Except Halt (QueueObj × Nodes α) := do
  if q.size = 0 then
    let (newBack, h) ← newNode o h
    .ok (⟨some newBack, some newBack, q.len + 1⟩, h)
  else
    let (newBack, h) ← newNode o h
    match q.back with
    | none => .error .undefined
    | some back =>
      let h ← setNext returns back (some newBack) h
      .ok ({ q with back := some newBack, len := q.len + 1 }, h)

def pop (returns : Bool) (q : QueueObj) (h : Nodes α) :
    Except Halt (Option α × QueueObj × Nodes α) := do
  if q.size = 0 then .ok (none, q, h)
  else
    match q.front with
    | none => .error .undefined
    | some temp =>
      let n ← deref temp h
      let back := if n.next = none then none else q.back
      let (retVal, h) ← setValue temp none h
      let h ← setNext returns temp none h
      let (_, h) ← delete (h.length + 1) (some temp) h
      .ok (retVal, ⟨n.next, back, q.len - 1⟩, h)

/-- `clear`, and what it deletes. -/
def clear (q : QueueObj) (h : Nodes α) : Except Halt (List α × QueueObj × Nodes α) := do
  let (os, h) ← delete (h.length + 1) q.front h
  .ok (os, new, h)

/-- `Node::equals` on another `Node`, where `equals x o` is `x->equals(o)`; the number bounds
how deep it calls itself. -/
def nodeEquals (equals : α → Option α → Bool) (h : Nodes α) :
    Nat → Nat → Nat → Except Halt Bool
  | 0, _, _ => .error .undefined
  | fuel + 1, p, other => do
    if p = other then .ok true
    else
      let n ← deref p h
      let o ← deref other h
      if o.val.any (fun y => !equals y n.val) then .ok false
      else if n.val.any (fun x => !equals x o.val) then .ok false
      else
        match n.next, o.next with
        | none, none => .ok true
        | none, some _ => .ok false
        | some _, none => .ok false
        | some p', some other' => nodeEquals equals h fuel p' other'

/-! ### Calls -/

structure State (α : Type) where
  queues : Nat → QueueObj
  nodes : Nodes α

namespace State

def new : State α := ⟨fun _ => QueueObj.new, []⟩

/-- `equals` of queue `i` and queue `j` -/
def equals (e : α → Option α → Bool) (st : State α) (i j : Nat) : Except Halt Bool :=
  if j = i then .ok true
  else
    match (st.queues i).front, (st.queues j).front with
    | none, none => .ok true
    | none, some _ => .ok false
    | some _, none => .ok false
    | some p, some other => nodeEquals e st.nodes (st.nodes.length + 1) p other

end State

inductive Call (α : Type)
  | push (i : Nat) (o : Option α)
  | pop (i : Nat)
  | clear (i : Nat)
  deriving DecidableEq

inductive Reply (α : Type)
  | done
  | object (o : Option α)
  | deleted (os : List α)
  deriving DecidableEq

/-- What a call does to the queues. -/
def answer (returns : Bool) (st : State α) : Call α → Except Halt (Reply α × State α)
  | .push i o => do
    let (q, h) ← (st.queues i).push returns o st.nodes
    .ok (.done, ⟨Function.update st.queues i q, h⟩)
  | .pop i => do
    let (o, q, h) ← (st.queues i).pop returns st.nodes
    .ok (.object o, ⟨Function.update st.queues i q, h⟩)
  | .clear i => do
    let (os, q, h) ← (st.queues i).clear st.nodes
    .ok (.deleted os, ⟨Function.update st.queues i q, h⟩)

/-- What the call does to lists, of which the first element is the next to go. -/
def listAnswer (qs : Nat → List (Option α)) : Call α → Reply α × (Nat → List (Option α))
  | .push i o => (.done, Function.update qs i (qs i ++ [o]))
  | .pop i => (.object (qs i).head?.join, Function.update qs i (qs i).tail)
  | .clear i => (.deleted ((qs i).filterMap id), Function.update qs i [])

/-- What the calls should reply, and the lists behind them. -/
def expected (calls : List (Call α)) : List (Reply α) × (Nat → List (Option α)) :=
  calls.foldl (fun p c => (p.1 ++ [(listAnswer p.2 c).1], (listAnswer p.2 c).2))
    ([], fun _ => [])

/-- From `front_` on, the nodes of the list are reached; `len_` is their number, and `back_`
the last of them. -/
def IsQueue (st : State α) (i : Nat) (l : List (Option α)) : Prop :=
  ∃ reached, Links.Chain st.nodes (st.queues i).front reached ∧ reached.map Prod.snd = l ∧
    (st.queues i).size.toNat = reached.length ∧
    (st.queues i).back = (reached.map Prod.fst).getLast? ∧
    ((st.queues i).back = none ↔ (st.queues i).front = none)

/-- `equals` compares lists without a `nullptr` element by element. -/
def ComparesLists (st : State α) (qs : Nat → List (Option α)) : Prop :=
  ∀ (i j : Nat) (xs ys : List α) (e : α → Option α → Bool),
    Equivalence (fun x y => e x (some y) = true) → qs i = xs.map some → qs j = ys.map some →
    (st.equals e i j = .ok true ↔ List.Forall₂ (fun x y => e x (some y) = true) xs ys) ∧
      (st.equals e i j = .ok false ↔ ¬ List.Forall₂ (fun x y => e x (some y) = true) xs ys)

/-- **All along the calls the queues are the lists**, as long as there is memory. -/
def Refines (returns : Bool) (calls : List (Call α)) : Prop :=
  ∀ made, made <+: calls → match serveE (answer returns) State.new made with
    | .ok (rs, st) => rs = (expected made).1 ∧ (∀ i, IsQueue st i ((expected made).2 i)) ∧
        ComparesLists st (expected made).2
    | .error .exit => ∃ before rs st, before <+: made ∧
        serveE (answer returns) State.new before = .ok (rs, st) ∧ ¬ Room st.nodes
    | .error .undefined => False

/-- The call comes to `setNext`: it pushes onto a queue that is not empty, or pops from one. -/
def ReachesSetNext (st : State α) : Call α → Prop
  | .push i _ => (st.queues i).size ≠ 0 ∧ Room st.nodes
  | .pop i => (st.queues i).size ≠ 0
  | .clear _ => False

/-! ### Nodes -/

section Nodes

open Links

variable {h : Nodes α} {o : Option Nat} {l : List (Nat × Option α)}

theorem deref_eq {p : Nat} {n : Link (Option α)} (hp : h.get p = some n) : deref p h = .ok n := by
  rw [deref, hp]

/-- **The nodes of a chain are deleted**, with their values, and no others. -/
theorem delete_chain (hc : Chain h o l) {fuel : Nat} (hfuel : l.length ≤ fuel) :
    ∃ h', delete fuel o h = .ok ((l.map Prod.snd).filterMap id, h') ∧
      ∀ p, p ∉ l.map Prod.fst → h'.get p = h.get p := by
  induction hc generalizing fuel with
  | nil =>
    refine ⟨h, ?_, fun p _ => rfl⟩
    cases fuel <;> rfl
  | @cons p n l hp hrest ih =>
    cases fuel with
    | zero => exact absurd hfuel (Nat.not_succ_le_zero _)
    | succ fuel =>
      have hnodup := (Chain.cons hp hrest).nodup
      rw [List.map_cons, List.nodup_cons] at hnodup
      obtain ⟨h₁, hdelete, hsame⟩ := ih (Nat.le_of_succ_le_succ hfuel)
      have hp₁ : h₁.get p = some n := (hsame p hnodup.1).trans hp
      refine ⟨h₁.set p none, ?_, fun q hq => ?_⟩
      · rw [delete, deref_eq hp]
        show (delete fuel n.next h).bind _ = _
        rw [hdelete]
        show (deref p h₁).bind _ = _
        rw [deref_eq hp₁]
        cases n.val with
        | none => rfl
        | some a => rfl
      · rw [List.map_cons, List.mem_cons, not_or] at hq
        rw [get_set_ne (Ne.symm hq.1)]
        exact hsame q hq.2

/-- **A node that is emptied and cut off is deleted alone.** -/
theorem delete_emptied {p : Nat} {n : Link (Option α)} (hp : h.get p = some n) :
    ∃ h₁ h₂ h₃, setValue p none h = .ok (n.val, h₁) ∧ setNext true p none h₁ = .ok h₂ ∧
      delete (h₂.length + 1) (some p) h₂ = .ok ([], h₃) ∧ ∀ r, r ≠ p → h₃.get r = h.get r := by
  have h₁ : Links.get (h.set p (some { n with val := none })) p = some { n with val := none } :=
    get_set hp _
  have h₂ : Links.get ((h.set p (some { n with val := none })).set p (some ⟨none, none⟩)) p =
      some ⟨none, none⟩ := get_set h₁ _
  refine ⟨_, _, ((h.set p (some { n with val := none })).set p (some ⟨none, none⟩)).set p none,
    by rw [setValue, deref_eq hp]; rfl, by rw [setNext, deref_eq h₁]; rfl, ?_, fun r hr => ?_⟩
  · rw [delete, deref_eq h₂]
    show (delete _ none _).bind _ = _
    rw [delete]
    show (deref p _).bind _ = _
    rw [deref_eq h₂]
    rfl
  · rw [get_set_ne (Ne.symm hr), get_set_ne (Ne.symm hr), get_set_ne (Ne.symm hr)]

theorem compare_fronts {o' : Option Nat} {m : List (Nat × Option α)} (hl : Chain h o l)
    (hm : Chain h o' m) {xs ys : List α} (hxs : l.map Prod.snd = xs.map some)
    (hys : m.map Prod.snd = ys.map some) {R : α → α → Prop} {compare : Nat → Nat → Except Halt Bool}
    (hboth : ∀ p q, o = some p → o' = some q →
      ∃ b, compare p q = .ok b ∧ (b = true ↔ List.Forall₂ R xs ys)) :
    ∃ b, (match o, o' with
      | none, none => .ok true
      | none, some _ => .ok false
      | some _, none => .ok false
      | some p, some q => compare p q : Except Halt Bool) = .ok b ∧
        (b = true ↔ List.Forall₂ R xs ys) := by
  cases hl with
  | nil =>
    obtain rfl : xs = [] := List.map_eq_nil_iff.mp hxs.symm
    cases hm with
    | nil =>
      obtain rfl : ys = [] := List.map_eq_nil_iff.mp hys.symm
      exact ⟨true, rfl, by simp⟩
    | cons _ _ =>
      cases ys with
      | nil => cases hys
      | cons y ys => exact ⟨false, rfl, by simp⟩
  | @cons p _ _ hp hrest =>
    cases hm with
    | nil =>
      obtain rfl : ys = [] := List.map_eq_nil_iff.mp hys.symm
      cases xs with
      | nil => cases hxs
      | cons x xs => exact ⟨false, rfl, by simp⟩
    | @cons q _ _ hq hrest' => exact hboth p q rfl rfl

/-- **Two chains apart are compared element by element.** -/
theorem nodeEquals_chain {e : α → Option α → Bool}
    (he : Equivalence fun x y => e x (some y) = true) {fuel p q : Nat}
    {m : List (Nat × Option α)} (hl : Chain h (some p) l) (hm : Chain h (some q) m)
    (hapart : ∀ r ∈ l.map Prod.fst, r ∉ m.map Prod.fst) (hfuel : l.length ≤ fuel)
    {xs ys : List α} (hxs : l.map Prod.snd = xs.map some) (hys : m.map Prod.snd = ys.map some) :
    ∃ b, nodeEquals e h fuel p q = .ok b ∧
      (b = true ↔ List.Forall₂ (fun x y => e x (some y) = true) xs ys) := by
  induction fuel generalizing p q l m xs ys with
  | zero =>
    cases hl
    exact absurd hfuel (Nat.not_succ_le_zero _)
  | succ fuel ih =>
    cases hl with
    | @cons _ n l hp hl' =>
    cases hm with
    | @cons _ o m hq hm' =>
    cases xs with
    | nil => cases hxs
    | cons x xs =>
    cases ys with
    | nil => cases hys
    | cons y ys =>
    obtain ⟨hx, hxs'⟩ := List.cons.inj hxs
    obtain ⟨hy, hys'⟩ := List.cons.inj hys
    have hne : p ≠ q := by
      rintro rfl
      exact hapart p List.mem_cons_self List.mem_cons_self
    have hapart' : ∀ r ∈ l.map Prod.fst, r ∉ m.map Prod.fst := fun r hr hr' =>
      hapart r (List.mem_cons_of_mem _ hr) (List.mem_cons_of_mem _ hr')
    have hround : nodeEquals e h (fuel + 1) p q =
        if e x (some y) = true then
          match n.next, o.next with
          | none, none => .ok true
          | none, some _ => .ok false
          | some _, none => .ok false
          | some p', some other' => nodeEquals e h fuel p' other'
        else .ok false := by
      have hval : n.val = some x := hx
      have hval' : o.val = some y := hy
      -- the two ways round agree
      have hsymm : e y (some x) = e x (some y) := by
        rw [Bool.eq_iff_iff]
        exact ⟨fun hyx => he.symm hyx, fun hxy => he.symm hxy⟩
      rw [nodeEquals, if_neg hne, deref_eq hp, deref_eq hq]
      show (if o.val.any (fun y => !e y n.val) = true then _ else _) = _
      rw [hval, hval', Option.any_some, Option.any_some, hsymm]
      cases e x (some y) <;> rfl
    rw [hround, List.forall₂_cons]
    by_cases hxy : e x (some y) = true
    · rw [if_pos hxy]
      have hboth : ∀ p' other', n.next = some p' → o.next = some other' →
          ∃ b, nodeEquals e h fuel p' other' = .ok b ∧
            (b = true ↔ List.Forall₂ (fun x y => e x (some y) = true) xs ys) := by
        intro p' other' hp' hother'
        rw [hp'] at hl'
        rw [hother'] at hm'
        exact ih hl' hm' hapart' (Nat.le_of_succ_le_succ hfuel) hxs' hys'
      obtain ⟨b, hb, hiff⟩ := compare_fronts hl' hm' hxs' hys' hboth
      exact ⟨b, hb, hiff.trans ⟨fun hall => ⟨hxy, hall⟩, fun hall => hall.2⟩⟩
    · rw [if_neg hxy]
      exact ⟨false, rfl, by simp [hxy]⟩

end Nodes

/-! ### One call -/

/-- The nodes that the queues reach, apart from each other. -/
structure Shows (st : State α) (ls : Nat → List (Nat × Option α)) : Prop where
  chain : ∀ i, Links.Chain st.nodes (st.queues i).front (ls i)
  len : ∀ i, (st.queues i).len.toNat = (ls i).length
  back : ∀ i, (st.queues i).back = ((ls i).map Prod.fst).getLast?
  apart : ∀ i j, i ≠ j → ∀ p ∈ (ls i).map Prod.fst, p ∉ (ls j).map Prod.fst

def contents (ls : Nat → List (Nat × Option α)) (i : Nat) : List (Option α) := (ls i).map Prod.snd

theorem contents_update (ls : Nat → List (Nat × Option α)) (i : Nat) (l : List (Nat × Option α)) :
    contents (Function.update ls i l) = Function.update (contents ls) i (l.map Prod.snd) := by
  funext j
  by_cases hj : j = i
  · subst hj
    simp [contents]
  · simp [contents, hj]

section Shows

open Links

variable {st : State α} {ls : Nat → List (Nat × Option α)}

theorem shows_new : Shows (State.new : State α) fun _ => [] where
  chain _ := Chain.nil
  len _ := rfl
  back _ := rfl
  apart _ _ _ _ hp := by cases hp

theorem Shows.size_eq_zero_iff (h : Shows st ls) (i : Nat) :
    (st.queues i).size = 0 ↔ ls i = [] := by
  rw [← List.length_eq_zero_iff, ← h.len i, ← UInt64.toNat_inj]
  exact Iff.rfl

theorem Shows.lt_length (h : Shows st ls) {i p : Nat} (hp : p ∈ (ls i).map Prod.fst) :
    p < st.nodes.length := by
  obtain ⟨⟨q, a⟩, hmem, rfl⟩ := List.mem_map.mp hp
  obtain ⟨n, hget⟩ := (h.chain i).get hmem
  exact lt_of_get hget

theorem Shows.update (h : Shows st ls) (i : Nat) {q : QueueObj} {nodes : Nodes α}
    {l : List (Nat × Option α)} (hchain : Chain nodes q.front l) (hlen : q.len.toNat = l.length)
    (hback : q.back = (l.map Prod.fst).getLast?)
    (hsame : ∀ j, j ≠ i → ∀ p ∈ (ls j).map Prod.fst, nodes.get p = st.nodes.get p)
    (hapart : ∀ j, j ≠ i → ∀ p ∈ l.map Prod.fst, p ∉ (ls j).map Prod.fst) :
    Shows ⟨Function.update st.queues i q, nodes⟩ (Function.update ls i l) where
  chain j := by
    by_cases hj : j = i
    · subst hj
      simpa using hchain
    · simpa [hj] using (h.chain j).frame (hsame j hj)
  len j := by
    by_cases hj : j = i
    · subst hj
      simpa using hlen
    · simpa [hj] using h.len j
  back j := by
    by_cases hj : j = i
    · subst hj
      simpa using hback
    · simpa [hj] using h.back j
  apart j k hjk p hp := by
    by_cases hj : j = i
    · subst hj
      rw [Function.update_self] at hp
      rw [Function.update_of_ne (Ne.symm hjk)]
      exact hapart k (Ne.symm hjk) p hp
    · rw [Function.update_of_ne hj] at hp
      by_cases hk : k = i
      · subst hk
        rw [Function.update_self]
        exact fun hp' => hapart j hj p hp' hp
      · rw [Function.update_of_ne hk]
        exact h.apart j k hjk p hp

theorem Shows.len_succ (h : Shows st ls) (hroom : Room st.nodes) (i : Nat) :
    ((st.queues i).len + 1).toNat = (ls i).length + 1 := by
  have hle := (h.chain i).length_le
  have hone : (1 : UInt64).toNat = 1 := rfl
  unfold Room at hroom
  rw [UInt64.toNat_add, h.len i, hone]
  exact Nat.mod_eq_of_lt (by omega)

theorem newNode_eq {nodes : Nodes α} (hroom : Room nodes) (val : Option α) :
    newNode val nodes = .ok (nodes.length, (nodes.alloc ⟨val, none⟩).2) := if_pos hroom

theorem Shows.push (h : Shows st ls) (i : Nat) (hroom : Room st.nodes) {returns : Bool}
    (hret : returns = true ∨ (st.queues i).size = 0) (o : Option α) :
    ∃ q nodes, (st.queues i).push returns o st.nodes = .ok (q, nodes) ∧
      Shows ⟨Function.update st.queues i q, nodes⟩
        (Function.update ls i (ls i ++ [(st.nodes.length, o)])) := by
  have hnew := newNode_eq hroom o
  have hfresh : ∀ {j p : Nat}, p ∈ (ls j).map Prod.fst → p ≠ st.nodes.length := fun hp =>
    Nat.ne_of_lt (h.lt_length hp)
  have hlast : (((ls i ++ [(st.nodes.length, o)]).map Prod.fst).getLast?) =
      some st.nodes.length := by simp
  have hlen : ((st.queues i).len + 1).toNat = (ls i ++ [(st.nodes.length, o)]).length := by
    rw [h.len_succ hroom i, List.length_append, List.length_singleton]
  have hapart : ∀ j, j ≠ i → ∀ p ∈ (ls i ++ [(st.nodes.length, o)]).map Prod.fst,
      p ∉ (ls j).map Prod.fst := by
    intro j hj p hp hp'
    rw [List.map_append, List.mem_append] at hp
    rcases hp with hp | hp
    · exact h.apart i j (Ne.symm hj) p hp hp'
    · exact hfresh hp' (List.mem_singleton.mp hp)
  by_cases hempty : (st.queues i).size = 0
  · refine ⟨⟨some st.nodes.length, some st.nodes.length, (st.queues i).len + 1⟩,
      (Links.alloc ⟨o, none⟩ st.nodes).2, ?_,
      h.update i ?_ hlen hlast.symm (fun j _ p hp => get_alloc_ne _ (hfresh hp)) hapart⟩
    · rw [QueueObj.push, if_pos hempty, hnew]
      rfl
    · rw [(h.size_eq_zero_iff i).mp hempty]
      exact Chain.cons (get_alloc ⟨o, none⟩ st.nodes) Chain.nil
  · have hret : returns = true := hret.resolve_right hempty
    subst hret
    obtain ⟨l, ⟨p, a⟩, hl⟩ : ∃ l c, ls i = l ++ [c] :=
      (List.eq_nil_or_concat' (ls i)).resolve_left fun hnil =>
        hempty ((h.size_eq_zero_iff i).mpr hnil)
    have hback : (st.queues i).back = some p := by
      rw [h.back i, hl]
      simp
    have hchain := h.chain i
    have hnodup := hchain.nodup
    rw [hl] at hchain hnodup
    have hp : st.nodes.get p = some ⟨a, none⟩ := hchain.get_last
    have hpmem : p ∈ (ls i).map Prod.fst := by
      rw [hl]
      simp
    obtain ⟨nodes, hnodes⟩ : ∃ nodes, (st.nodes.alloc (⟨o, none⟩ : Link (Option α))).2 = nodes :=
      ⟨_, rfl⟩
    have hold : ∀ {r : Nat}, r ≠ st.nodes.length → nodes.get r = st.nodes.get r := by
      intro r hr
      rw [← hnodes]
      exact get_alloc_ne _ hr
    have hp₁ : nodes.get p = some ⟨a, none⟩ := (hold (hfresh hpmem)).trans hp
    have hq₁ : nodes.get st.nodes.length = some ⟨o, none⟩ := by
      rw [← hnodes]
      exact get_alloc ⟨o, none⟩ st.nodes
    refine ⟨{ st.queues i with back := some st.nodes.length, len := (st.queues i).len + 1 },
      nodes.set p (some ⟨a, some st.nodes.length⟩), ?_,
      h.update i ?_ hlen hlast.symm ?_ hapart⟩
    · rw [QueueObj.push, if_neg hempty, hnew, hback, hnodes]
      show (setNext true p (some st.nodes.length) nodes).bind _ = _
      rw [setNext, deref_eq hp₁]
      rfl
    · rw [hl]
      refine hchain.append (fun r hr => ?_) (get_set hp₁ _) ?_
      · have hne : p ≠ r := by
          rintro rfl
          rw [List.map_append, List.nodup_append] at hnodup
          exact hnodup.2.2 p hr p List.mem_cons_self rfl
        rw [get_set_ne hne]
        refine hold (@hfresh i r ?_)
        rw [hl, List.map_append]
        exact List.mem_append_left _ hr
      · rw [get_set_ne (hfresh hpmem), hq₁]
    · intro j hj r hr
      have hne : p ≠ r := by
        rintro rfl
        exact h.apart i j (Ne.symm hj) p hpmem hr
      rw [get_set_ne hne]
      exact hold (hfresh hr)

theorem Shows.pop (h : Shows st ls) (i : Nat) {returns : Bool}
    (hret : returns = true ∨ (st.queues i).size = 0) :
    ∃ q nodes, (st.queues i).pop returns st.nodes = .ok ((contents ls i).head?.join, q, nodes) ∧
      Shows ⟨Function.update st.queues i q, nodes⟩ (Function.update ls i (ls i).tail) := by
  by_cases hempty : (st.queues i).size = 0
  · have hnil := (h.size_eq_zero_iff i).mp hempty
    refine ⟨st.queues i, st.nodes, ?_, ?_⟩
    · rw [QueueObj.pop, if_pos hempty, contents, hnil]
      rfl
    · rw [Function.update_eq_self, hnil]
      have hself : Function.update ls i [].tail = ls := by
        rw [List.tail_nil, ← hnil, Function.update_eq_self]
      rw [hself]
      exact h
  · have hret : returns = true := hret.resolve_right hempty
    subst hret
    have hchain := h.chain i
    have hlen := h.len i
    have hback := h.back i
    have hpos : ls i ≠ [] := fun hnil => hempty ((h.size_eq_zero_iff i).mpr hnil)
    generalize hfront : (st.queues i).front = front at hchain
    generalize hl : ls i = l at hchain hlen hback hpos
    cases hchain with
    | nil => exact absurd rfl hpos
    | @cons p n l hp hrest =>
      have hnodup := (Chain.cons hp hrest).nodup
      rw [List.map_cons, List.nodup_cons] at hnodup
      obtain ⟨h₁, h₂, h₃, hvalue, hsetNext, hdelete, hothers⟩ := delete_emptied hp
      have hsub : ((st.queues i).len - 1).toNat = l.length := by
        have hone : (1 : UInt64) ≤ (st.queues i).len := by
          rw [UInt64.le_iff_toNat_le, hlen, List.length_cons]
          show 1 ≤ l.length + 1
          omega
        rw [UInt64.toNat_sub_of_le _ _ hone, hlen, List.length_cons]
        rfl
      have hnext : (if n.next = none then none else (st.queues i).back) =
          (l.map Prod.fst).getLast? := by
        cases hrest' : n.next with
        | none =>
          rw [hrest'] at hrest
          cases hrest
          rfl
        | some p' =>
          rw [hrest'] at hrest
          cases hrest
          rw [if_neg (by simp), hback]
          simp [List.getLast?_cons_cons]
      refine ⟨⟨n.next, if n.next = none then none else (st.queues i).back, (st.queues i).len - 1⟩,
        h₃, ?_, h.update i ?_ hsub hnext ?_ ?_⟩
      · have hhead : (contents ls i).head?.join = n.val := by
          rw [contents, hl]
          rfl
        rw [QueueObj.pop, if_neg hempty, hfront, hhead]
        show (deref p st.nodes).bind _ = _
        rw [deref_eq hp]
        show (setValue p none st.nodes).bind _ = _
        rw [hvalue]
        show (setNext true p none h₁).bind _ = _
        rw [hsetNext]
        show (delete (h₂.length + 1) (some p) h₂).bind _ = _
        rw [hdelete]
        rfl
      · rw [List.tail_cons]
        refine hrest.frame fun r hr => hothers r ?_
        rintro rfl
        exact hnodup.1 hr
      · intro j hj r hr
        refine hothers r ?_
        rintro rfl
        refine h.apart i j (Ne.symm hj) r ?_ hr
        rw [hl]
        exact List.mem_cons_self
      · intro j hj r hr
        refine h.apart i j (Ne.symm hj) r ?_
        rw [hl]
        exact List.mem_cons_of_mem _ hr

theorem Shows.clear (h : Shows st ls) (i : Nat) :
    ∃ nodes, (st.queues i).clear st.nodes = .ok ((contents ls i).filterMap id, new, nodes) ∧
      Shows ⟨Function.update st.queues i new, nodes⟩ (Function.update ls i []) := by
  have hfuel : (ls i).length ≤ st.nodes.length + 1 :=
    ((h.chain i).length_le.trans (length_addresses_le _)).trans (Nat.le_succ _)
  obtain ⟨nodes, hdelete, hsame⟩ := delete_chain (h.chain i) hfuel
  refine ⟨nodes, ?_, h.update i Chain.nil rfl rfl (fun j hj p hp => hsame p fun hp' => ?_)
    fun j _ p hp => ?_⟩
  · rw [QueueObj.clear, hdelete]
    rfl
  · exact h.apart i j (Ne.symm hj) p hp' hp
  · cases hp

theorem Shows.isQueue (h : Shows st ls) (i : Nat) : IsQueue st i (contents ls i) := by
  refine ⟨ls i, h.chain i, rfl, h.len i, h.back i, ?_⟩
  have hchain := h.chain i
  rw [h.back i]
  generalize (st.queues i).front = front at hchain ⊢
  generalize ls i = l at hchain ⊢
  cases hchain with
  | nil => simp
  | cons _ _ => simp

theorem Shows.equals (h : Shows st ls) {i j : Nat} {xs ys : List α} {e : α → Option α → Bool}
    (he : Equivalence fun x y => e x (some y) = true) (hxs : contents ls i = xs.map some)
    (hys : contents ls j = ys.map some) : ∃ b, st.equals e i j = .ok b ∧
      (b = true ↔ List.Forall₂ (fun x y => e x (some y) = true) xs ys) := by
  rw [State.equals]
  by_cases hij : j = i
  · subst hij
    obtain rfl : xs = ys :=
      List.map_injective_iff.mpr (Option.some_injective α) (hxs.symm.trans hys)
    exact ⟨true, if_pos rfl, iff_of_true rfl (List.forall₂_same.mpr fun x _ => he.refl x)⟩
  · rw [if_neg hij]
    have hi := h.chain i
    have hj := h.chain j
    have hapart := h.apart i j (Ne.symm hij)
    have hfuel : (ls i).length ≤ st.nodes.length + 1 :=
      (hi.length_le.trans (length_addresses_le _)).trans (Nat.le_succ _)
    refine compare_fronts hi hj hxs hys fun p other hp hother => ?_
    rw [hp] at hi
    rw [hother] at hj
    exact nodeEquals_chain he hi hj hapart hfuel hxs hys

theorem Shows.comparesLists (h : Shows st ls) : ComparesLists st (contents ls) := by
  intro i j xs ys e he hxs hys
  obtain ⟨b, hb, hiff⟩ := h.equals he hxs hys
  rw [hb, ← hiff]
  cases b <;> simp

/-- **A call does to the queues what it does to the lists**, unless there is no memory. -/
theorem Shows.answer (h : Shows st ls) {returns : Bool} {c : Call α}
    (hc : returns = true ∨ ¬ ReachesSetNext st c) :
    answer returns st c = .error .exit ∧ ¬ Room st.nodes ∨
      ∃ st' ls', answer returns st c = .ok ((listAnswer (contents ls) c).1, st') ∧
        Shows st' ls' ∧ contents ls' = (listAnswer (contents ls) c).2 := by
  cases c with
  | push i o =>
    by_cases hroom : Room st.nodes
    · right
      have hret : returns = true ∨ (st.queues i).size = 0 :=
        hc.imp_right fun hno => by_contra fun hne => hno ⟨hne, hroom⟩
      obtain ⟨q, nodes, hpush, hshows⟩ := h.push i hroom hret o
      refine ⟨_, _, ?_, hshows, ?_⟩
      · rw [QueueObj.answer, hpush]
        rfl
      · rw [contents_update, List.map_append]
        rfl
    · left
      have hnew : newNode o st.nodes = .error .exit := if_neg hroom
      refine ⟨?_, hroom⟩
      rw [QueueObj.answer, QueueObj.push, hnew]
      split <;> rfl
  | pop i =>
    right
    have hret : returns = true ∨ (st.queues i).size = 0 :=
      hc.imp_right fun hno => by_contra fun hne => hno hne
    obtain ⟨q, nodes, hpop, hshows⟩ := h.pop i hret
    refine ⟨_, _, ?_, hshows, ?_⟩
    · rw [QueueObj.answer, hpop]
      rfl
    · rw [contents_update, List.map_tail]
      rfl
  | clear i =>
    right
    obtain ⟨nodes, hclear, hshows⟩ := h.clear i
    refine ⟨_, _, ?_, hshows, ?_⟩
    · rw [QueueObj.answer, hclear]
      rfl
    · rw [contents_update]
      rfl

end Shows

theorem answer_of_reaches {st : State α} {c : Call α} (hc : ReachesSetNext st c) :
    answer false st c = .error .undefined := by
  have hset : ∀ (p : Nat) (n : Option Nat) (nodes : Nodes α),
      setNext false p n nodes = .error .undefined := by
    intro p n nodes
    rw [setNext, deref]
    cases nodes.get p <;> rfl
  cases c with
  | push i o =>
    obtain ⟨hne, hroom⟩ := hc
    rw [QueueObj.answer, QueueObj.push, if_neg hne, newNode_eq hroom]
    cases hback : (st.queues i).back with
    | none => rfl
    | some p =>
      show ((setNext false p _ _).bind _).bind _ = _
      rw [hset]
      rfl
  | pop i =>
    rw [QueueObj.answer, QueueObj.pop, if_neg hc]
    cases hfront : (st.queues i).front with
    | none => rfl
    | some p =>
      show ((deref p st.nodes).bind _).bind _ = _
      rw [setValue, deref]
      cases st.nodes.get p with
      | none => rfl
      | some n =>
        show ((setNext false p none _).bind _).bind _ = _
        rw [hset]
        rfl
  | clear i => exact hc.elim

/-! ### All calls -/

theorem expected_append_singleton (calls : List (Call α)) (c : Call α) :
    expected (calls ++ [c]) = ((expected calls).1 ++ [(listAnswer (expected calls).2 c).1],
      (listAnswer (expected calls).2 c).2) := by
  rw [expected, List.foldl_append]
  rfl

/-- No call that is made comes to a `setNext` that does not return. -/
def Returning (returns : Bool) (calls : List (Call α)) : Prop :=
  ∀ made c rs st, made ++ [c] <+: calls → serveE (answer returns) State.new made = .ok (rs, st) →
    returns = true ∨ ¬ ReachesSetNext st c

/-- **The queues are the lists behind calls that return**, or memory ran out. -/
theorem Returning.shows {returns : Bool} {calls : List (Call α)} (h : Returning returns calls) :
    (serveE (answer returns) State.new calls = .error .exit ∧ ∃ before rs st, before <+: calls ∧
      serveE (answer returns) State.new before = .ok (rs, st) ∧ ¬ Room st.nodes) ∨
    ∃ st ls, serveE (answer returns) State.new calls = .ok ((expected calls).1, st) ∧
      Shows st ls ∧ contents ls = (expected calls).2 := by
  induction calls using List.reverseRecOn with
  | nil => exact Or.inr ⟨State.new, fun _ => [], rfl, shows_new, rfl⟩
  | append_singleton calls c ih =>
    rw [serveE_append_singleton, expected_append_singleton]
    have hinit : Returning returns calls := fun made c' rs st hp =>
      h made c' rs st (hp.trans (List.prefix_append calls [c]))
    rcases ih hinit with ⟨hexit, before, rs, st, hp, hrun, hfull⟩ | ⟨st, ls, hrun, hshows, hls⟩
    · left
      rw [hexit]
      exact ⟨rfl, before, rs, st, hp.trans (List.prefix_append calls [c]), hrun, hfull⟩
    · rw [hrun, ← hls]
      rcases hshows.answer (h calls c _ st (List.prefix_refl _) hrun) with
        ⟨hexit, hfull⟩ | ⟨st', ls', hanswer, hshows', hls'⟩
      · left
        refine ⟨?_, calls, _, st, List.prefix_append calls [c], hrun, hfull⟩
        show (answer returns st c).bind _ = _
        rw [hexit]
        rfl
      · right
        refine ⟨st', ls', ?_, hshows', hls'⟩
        show (answer returns st c).bind _ = _
        rw [hanswer]
        rfl

/-- **Queues are first in, first out, and compared as lists, exactly as long as `setNext`
returns or is not called.** -/
theorem refines_iff (returns : Bool) (calls : List (Call α)) : Refines returns calls ↔
    returns = true ∨ ∀ made c rs st, made ++ [c] <+: calls →
      serveE (answer returns) State.new made = .ok (rs, st) → ¬ ReachesSetNext st c := by
  constructor
  · intro h
    cases returns with
    | true => exact Or.inl rfl
    | false =>
      refine Or.inr fun made c rs st hp hrun hreach => ?_
      have hlast := h (made ++ [c]) hp
      rw [serveE_append_singleton, hrun] at hlast
      have hundefined : (Except.ok (rs, st)).bind (fun p : List (Reply α) × State α =>
          (answer false p.2 c).bind fun q => .ok (p.1 ++ [q.1], q.2)) = .error .undefined := by
        show (answer false st c).bind _ = _
        rw [answer_of_reaches hreach]
        rfl
      rw [hundefined] at hlast
      exact hlast
  · intro h made hmade
    have hreturning : Returning returns made := fun made' c rs st hp hrun =>
      h.imp_right fun hno => hno made' c rs st (hp.trans hmade) hrun
    rcases hreturning.shows with ⟨hexit, hfull⟩ | ⟨st, ls, hrun, hshows, hls⟩
    · rw [hexit]
      exact hfull
    · rw [hrun, ← hls]
      exact ⟨rfl, hshows.isQueue, hshows.comparesLists⟩

/-- Two objects are pushed. -/
theorem not_refines_two_pushes : ¬ Refines false [.push 0 (some 1), .push 0 (some 2)] := by
  intro h
  have hlast := h _ (List.prefix_refl _)
  have hrun : serveE (answer false) State.new [.push 0 (some 1), .push 0 (some 2)] =
      .error .undefined := rfl
  rw [hrun] at hlast
  exact hlast

end QueueObj

end Eau2
