import Eau2.Network.Pseudo.OwnGets

/-!
# Applications on a cluster

`run_` of each node as a tree of its calls (`Config.ofApps`).  A program that works alone
with a store puts keys nobody else has put, each with one value, and reads keys that have
been put (`Written.call`).
When the programs of all nodes come to their end that way, a part of one after a part of
another, then they are write-once programs, and their end is the end of every run.

* `Once`, `Once.steps`: a part of a program, run alone, is a piece of a run of the central
  store.
* `Stands.steps`, `Stands.inOrder`: one node goes on, or one after another.
* `alone_of_inOrder`: programs that come to their end in the order of their nodes.
* `Alone.result_eq`: **whatever a node returns in any run is what its program returned
  alone.**
* `Alone.ends`: **in a fair and orderly run all nodes return it.**
-/

namespace Eau2

namespace Pseudo

variable {α β : Type}

abbrev App (α : Type) := Prog Op (Option Value) α

def Config.ofApps (numNodes : SizeT) (run_ : SizeT → App α) : Config where
  numNodes := numNodes
  serverIndex := 0
  program i := (run_ i).next

abbrev Written := Key → Option (SizeT × Value)

namespace Written

def empty : Written := fun _ => none

def values (w : Written) : Key → Option Value := fun k => (w k).map Prod.snd

def put (w : Written) (i : SizeT) (k : Key) (v : Value) : Written :=
  Function.update w k (some (i, v))

/-- A call of node `i`: what it returns, and what is put then. -/
def call (i : SizeT) (w : Written) : Op → Option (Option Value × Written)
  | .put k v => if w k = none ∨ w k = some (i, v) then some (none, w.put i k v) else none
  | .getValue k true => (w.values k).map fun v => (some v, w)
  | .getValue k false =>
    (w k).bind fun p => if k.homeNode = i ∧ p.1 = i then some (some p.2, w) else none

@[simp] theorem values_put (w : Written) (i : SizeT) (k : Key) (v : Value) :
    (w.put i k v).values = Function.update w.values k (some v) := by
  funext k'
  rw [values, put, Function.update_apply, Function.update_apply]
  split <;> rfl

theorem values_eq_some {w : Written} {k : Key} {v : Value} :
    w.values k = some v ↔ ∃ i, w k = some (i, v) := by
  rw [values, Option.map_eq_some_iff]
  constructor
  · rintro ⟨⟨i, v'⟩, hw, rfl⟩
    exact ⟨i, hw⟩
  · rintro ⟨i, hw⟩
    exact ⟨(i, v), hw, rfl⟩

end Written

/-! ### One program after another -/

section

variable {cfg : Config} {w w' : Written} {c : Central} {i : SizeT}

/-- A call that was made after the replies `rs` was one of a write-once program. -/
def Kept (cfg : Config) (w : Written) (i : SizeT) (rs : List (Option Value)) : Op → Prop
  | .put k v => w k = some (i, v)
  | .getValue _ true => True
  | .getValue k false => k.homeNode = i ∧ ∃ rs' v, rs' <+: rs ∧ cfg.program i rs' = some (.put k v)

/-- **A central store on which each key was put once.** -/
structure Once (cfg : Config) (w : Written) (c : Central) : Prop where
  store : c.store = w.values
  results : ∀ i, Follows (reply w.values) (cfg.program i) (c.results i)
  made : ∀ i rs op, rs <+: c.results i → rs ≠ c.results i → cfg.program i rs = some op →
    Kept cfg w i rs op
  put : ∀ k i v, w k = some (i, v) →
    ∃ rs, rs <+: c.results i ∧ rs ≠ c.results i ∧ cfg.program i rs = some (.put k v)

theorem once_init (cfg : Config) : Once cfg Written.empty Central.init where
  store := rfl
  results _ := .nil
  made i rs op hle hne := absurd (List.prefix_nil.mp hle) hne
  put k i v h := by cases h

theorem Kept.mono (h : ∀ k p, w k = some p → w' k = some p) {rs : List (Option Value)} {op : Op}
    (hk : Kept cfg w i rs op) : Kept cfg w' i rs op := by
  rcases op with ⟨k, v⟩ | ⟨k, b⟩
  · exact h k _ hk
  · cases b with
    | true => trivial
    | false => exact hk

theorem reply_mono (h : ∀ k p, w k = some p → w' k = some p) (op : Op) (r : Option Value)
    (hr : reply w.values op = some r) : reply w'.values op = some r := by
  cases op with
  | put k v => exact hr
  | getValue k b =>
    obtain ⟨v, hv, rfl⟩ := Option.map_eq_some_iff.mp hr
    obtain ⟨j, hj⟩ := Written.values_eq_some.mp hv
    rw [reply, Written.values_eq_some.mpr ⟨j, h k _ hj⟩]
    rfl

theorem Once.finish (h : Once cfg w c) {op : Op} {r : Option Value}
    (hop : cfg.program i (c.results i) = some op) (hgrow : ∀ k p, w k = some p → w' k = some p)
    (hnew : ∀ k j v, w' k = some (j, v) → w k = some (j, v) ∨ j = i ∧ op = .put k v)
    (hreply : reply w'.values op = some r) (hkept : Kept cfg w' i (c.results i) op) :
    Once cfg w' { c.finish i r with store := w'.values } := by
  have hself : ({ c.finish i r with store := w'.values } : Central).results i =
      c.results i ++ [r] := c.finish_self i r
  have hother : ∀ j, j ≠ i →
      ({ c.finish i r with store := w'.values } : Central).results j = c.results j :=
    fun j hj => c.finish_other hj r
  refine ⟨rfl, fun j => ?_, fun j rs op' hle hne hop' => ?_, fun k j v hk => ?_⟩
  · by_cases hj : j = i
    · subst hj
      rw [hself]
      exact ((h.results j).mono (reply_mono hgrow)).snoc hop hreply
    · rw [hother j hj]
      exact (h.results j).mono (reply_mono hgrow)
  · by_cases hj : j = i
    · subst hj
      rw [hself] at hle hne
      have hle := (List.prefix_concat_iff.mp hle).resolve_left hne
      by_cases heq : rs = c.results j
      · subst heq
        rw [hop] at hop'
        cases hop'
        exact hkept
      · exact (h.made j rs op' hle heq hop').mono hgrow
    · rw [hother j hj] at hle hne
      exact (h.made j rs op' hle hne hop').mono hgrow
  · have hold : w k = some (j, v) →
        ∃ rs, rs <+: ({ c.finish i r with store := w'.values } : Central).results j ∧
          rs ≠ ({ c.finish i r with store := w'.values } : Central).results j ∧
          cfg.program j rs = some (.put k v) := by
      intro hk
      obtain ⟨rs, hle, hne, hput⟩ := h.put k j v hk
      by_cases hj : j = i
      · subst hj
        rw [hself]
        refine ⟨rs, hle.trans (List.prefix_append _ _), ?_, hput⟩
        rintro rfl
        exact absurd hle.length_le (by simp)
      · rw [hother j hj]
        exact ⟨rs, hle, hne, hput⟩
    rcases hnew k j v hk with hk | ⟨rfl, rfl⟩
    · exact hold hk
    · rw [hself]
      exact ⟨c.results j, List.prefix_append _ _, by simp, hop⟩

/-- **A call of a program alone is a call of the central store.** -/
theorem Once.call (h : Once cfg w c) (hi : i < cfg.numNodes) {op : Op} {r : Option Value}
    (hop : cfg.program i (c.results i) = some op) (hcall : w.call i op = some (r, w')) :
    ∃ c', Central.step cfg c i = some c' ∧ Once cfg w' c' ∧ c'.results i = c.results i ++ [r] ∧
      ∀ j, j ≠ i → c'.results j = c.results j := by
  have hstep : ∀ c', c.call i op = some c' → Central.step cfg c i = some c' := by
    intro c' hc
    rw [Central.step, if_pos hi, hop]
    exact hc
  have hread : ∀ v, w' = w → c.call i op = some (c.finish i (some v)) →
      Once cfg w { c.finish i (some v) with store := w.values } → r = some v →
      ∃ c', Central.step cfg c i = some c' ∧ Once cfg w' c' ∧
        c'.results i = c.results i ++ [r] ∧ ∀ j, j ≠ i → c'.results j = c.results j := by
    rintro v rfl hc ho rfl
    rw [← h.store] at ho
    exact ⟨_, hstep _ hc, ho, c.finish_self i _, fun j hj => c.finish_other hj _⟩
  rcases op with ⟨k, v⟩ | ⟨k, b⟩
  · rw [Written.call] at hcall
    split at hcall
    · rename_i hk
      cases hcall
      have hgrow : ∀ k' p, w k' = some p → w.put i k v k' = some p := by
        intro k' p hp
        rw [Written.put, Function.update_apply]
        split
        · rename_i he
          rw [he] at hp
          rcases hk with hk | hk <;> rw [hk] at hp <;> cases hp
          rfl
        · exact hp
      refine ⟨_, hstep _ rfl, ?_, c.finish_self i _, fun j hj => c.finish_other hj _⟩
      rw [h.store, ← Written.values_put w i k v]
      refine h.finish hop hgrow (fun k' j v' hk' => ?_) rfl (Function.update_self _ _ _)
      rw [Written.put, Function.update_apply] at hk'
      split at hk'
      · rename_i he
        cases hk'
        exact Or.inr ⟨rfl, by rw [he]⟩
      · exact Or.inl hk'
    · cases hcall
  · cases b with
    | true =>
      obtain ⟨v, hv, hr⟩ := Option.map_eq_some_iff.mp hcall
      cases hr
      refine hread v rfl ?_ ?_ rfl
      · rw [Central.call, h.store, hv]
      · refine h.finish hop (fun _ _ hp => hp) (fun _ _ _ hk => Or.inl hk) ?_ trivial
        rw [reply, hv]
        rfl
    | false =>
      obtain ⟨⟨j, v⟩, hv, hr⟩ := Option.bind_eq_some_iff.mp hcall
      split at hr
      · rename_i hown
        obtain ⟨hk, rfl⟩ := hown
        cases hr
        have hvalue : w.values k = some v := Written.values_eq_some.mpr ⟨_, hv⟩
        refine hread v rfl ?_ ?_ rfl
        · rw [Central.call, h.store, hvalue]
        · obtain ⟨rs', hle, -, hput⟩ := h.put k _ v hv
          refine h.finish hop (fun _ _ hp => hp) (fun _ _ _ hk => Or.inl hk) ?_
            ⟨hk, rs', v, hle, hput⟩
          rw [reply, hvalue]
          rfl
      · cases hr

/-- **A part of a program that runs alone is a piece of a run of the central store.** -/
theorem Once.steps (h : Once cfg w c) (hi : i < cfg.numNodes) {p : App α}
    (hp : cfg.program i = p.next) {q q' : App α} (hq : p.after (c.results i) = q)
    (hsteps : Prog.Steps (Written.call i) q w q' w') :
    ∃ is c', Schedule.run (Central.step cfg) c is = some c' ∧ Once cfg w' c' ∧
      p.after (c'.results i) = q' ∧ ∀ j, j ≠ i → c'.results j = c.results j := by
  induction hsteps generalizing c with
  | refl q w => exact ⟨[], c, rfl, h, hq, fun _ _ => rfl⟩
  | @call op rest w w₁ w' r q' hcall _ ih =>
    have hop : cfg.program i (c.results i) = some op := by
      rw [hp, Prog.next, hq]
      rfl
    obtain ⟨c₁, hstep, h₁, hself, hother⟩ := h.call hi hop hcall
    obtain ⟨rest', hrest', hafter⟩ := Prog.after_of_next (hp ▸ hop)
    have hrest : rest' = rest := by
      rw [hq] at hrest'
      exact (Prog.call.inj hrest').2.symm
    obtain ⟨is, c', hrun', h', hfin, hother'⟩ := ih h₁ (by rw [hself, hafter, hrest])
    refine ⟨i :: is, c', ?_, h', hfin, fun j hj => (hother' j hj).trans (hother j hj)⟩
    show (Central.step cfg c i).bind _ = _
    rw [hstep]
    exact hrun'

theorem Once.writeOnce (h : Once cfg w c)
    (hend : ∀ i, i < cfg.numNodes → cfg.program i (c.results i) = none) :
    WriteOnce cfg w.values := by
  have hkept : ∀ i, i < cfg.numNodes → ∀ rs op,
      Follows (reply w.values) (cfg.program i) rs → cfg.program i rs = some op →
      Kept cfg w i rs op := by
    intro i hi rs op hrs hop
    refine h.made i rs op ((h.results i).le_of_ends (hend i hi) hrs) ?_ hop
    rintro rfl
    rw [hend i hi] at hop
    cases hop
  refine ⟨fun i hi rs k v hrs hop => ?_, fun i hi rs k hrs hop => hkept i hi rs _ hrs hop⟩
  exact Written.values_eq_some.mpr ⟨i, hkept i hi rs _ hrs hop⟩

end

/-! ### Applications that come to their end -/

/-- The programs come to their end, a part of one after a part of another: node `i` returns
`a i`, and `w` is what has been put. -/
def Alone (n : SizeT) (run_ : SizeT → App α) (a : SizeT → α) (w : Written) : Prop :=
  ∃ is c, Central.run (.ofApps n run_) is = some c ∧ Once (.ofApps n run_) w c ∧
    ∀ i, i < n → (run_ i).after (c.results i) = .ret (a i)

section

variable {n : SizeT} {run_ : SizeT → App α} {a : SizeT → α} {w : Written}

theorem ends_of_after {c : Central} {i : SizeT} (h : (run_ i).after (c.results i) = .ret (a i)) :
    (Config.ofApps n run_).program i (c.results i) = none := by
  show (run_ i).next _ = none
  rw [Prog.next, h]
  rfl

theorem Alone.writeOnce (h : Alone n run_ a w) : WriteOnce (.ofApps n run_) w.values := by
  obtain ⟨is, c, -, honce, hend⟩ := h
  exact honce.writeOnce fun i hi => ends_of_after (hend i hi)

/-- `ps i` is left of the program of node `i`, and `w` is what has been put. -/
def Stands (n : SizeT) (run_ ps : SizeT → App α) (w : Written) : Prop :=
  ∃ is c, Central.run (.ofApps n run_) is = some c ∧ Once (.ofApps n run_) w c ∧
    ∀ i, (run_ i).after (c.results i) = ps i

theorem stands_init (n : SizeT) (run_ : SizeT → App α) : Stands n run_ run_ Written.empty :=
  ⟨[], Central.init, rfl, once_init _, fun i => Prog.after_nil (run_ i)⟩

section

variable {ps : SizeT → App α} {w' : Written}

/-- **A node goes on**, and what is left of the others stays. -/
theorem Stands.steps (h : Stands n run_ ps w) {i : SizeT} (hi : i < n) {p' : App α}
    (hsteps : Prog.Steps (Written.call i) (ps i) w p' w') :
    Stands n run_ (Function.update ps i p') w' := by
  obtain ⟨is, c, hrun, honce, hps⟩ := h
  have hprogram : (Config.ofApps n run_).program i = (run_ i).next := rfl
  obtain ⟨is', c', hrun', honce', hself, hother⟩ := honce.steps hi hprogram (hps i) hsteps
  refine ⟨is ++ is', c', ?_, honce', fun j => ?_⟩
  · rw [Central.run, Schedule.run_append, show Schedule.run _ _ is = some c from hrun]
    exact hrun'
  · rw [Function.update_apply]
    split
    · rename_i hji
      rw [hji]
      exact hself
    · rename_i hji
      rw [hother j hji]
      exact hps j

/-- **The nodes from `m₀` on go on, one after another**: `I m` is true of what has been put when
those below `m` have. -/
theorem Stands.inOrder (h : Stands n run_ ps w) (ps' : SizeT → App α)
    {I : ℕ → Written → Prop} {m₀ : ℕ} (hI : I m₀ w)
    (hsteps : ∀ i, i < n → m₀ ≤ i.toNat → ∀ w, I i.toNat w →
      ∃ w', Prog.Steps (Written.call i) (ps i) w (ps' i) w' ∧ I (i.toNat + 1) w')
    (hle : m₀ ≤ n.toNat) : ∃ w', I n.toNat w' ∧
      Stands n run_ (fun i => if m₀ ≤ i.toNat ∧ i < n then ps' i else ps i) w' := by
  suffices hupTo : ∀ m, m₀ ≤ m → m ≤ n.toNat → ∃ w', I m w' ∧
      Stands n run_ (fun i => if m₀ ≤ i.toNat ∧ i.toNat < m then ps' i else ps i) w' by
    obtain ⟨w', hI', h'⟩ := hupTo n.toNat hle (Nat.le_refl _)
    refine ⟨w', hI', ?_⟩
    simp only [UInt64.lt_iff_toNat_lt]
    exact h'
  intro m hm
  induction m, hm using Nat.le_induction with
  | base =>
    intro _
    refine ⟨w, hI, ?_⟩
    have hnone : (fun i : SizeT => if m₀ ≤ i.toNat ∧ i.toNat < m₀ then ps' i else ps i) = ps :=
      funext fun i => if_neg (by omega)
    rwa [hnone]
  | succ m hm ih =>
    intro hlt
    obtain ⟨w₁, hI₁, h₁⟩ := ih (by omega)
    obtain ⟨i, rfl⟩ : ∃ i : SizeT, i.toNat = m :=
      ⟨UInt64.ofNat m, UInt64.toNat_ofNat_of_lt' (Nat.lt_trans hlt n.toNat_lt)⟩
    have hi : i < n := UInt64.lt_iff_toNat_lt.mpr (by omega)
    obtain ⟨w₂, hstep, hI₂⟩ := hsteps i hi hm w₁ hI₁
    have hself : (if m₀ ≤ i.toNat ∧ i.toNat < i.toNat then ps' i else ps i) = ps i :=
      if_neg (by omega)
    have h₂ := h₁.steps hi (by rw [hself]; exact hstep)
    refine ⟨w₂, hI₂, ?_⟩
    -- node `i` is the next one
    have hnext : (fun j : SizeT => if m₀ ≤ j.toNat ∧ j.toNat < i.toNat + 1 then ps' j else ps j) =
        Function.update (fun j : SizeT => if m₀ ≤ j.toNat ∧ j.toNat < i.toNat then ps' j else ps j)
          i (ps' i) := by
      funext j
      rw [Function.update_apply]
      by_cases hji : j = i
      · subst hji
        rw [if_pos rfl, if_pos (by omega)]
      · have hne : j.toNat ≠ i.toNat := fun he => hji (UInt64.toNat_inj.mp he)
        rw [if_neg hji]
        exact if_congr (by omega) rfl rfl
    rwa [hnext]

theorem Stands.alone (h : Stands n run_ ps w) (hend : ∀ i, i < n → ps i = .ret (a i)) :
    Alone n run_ a w := by
  obtain ⟨is, c, hrun, honce, hps⟩ := h
  exact ⟨is, c, hrun, honce, fun i hi => (hps i).trans (hend i hi)⟩

end

/-- **The programs come to their end in the order of their nodes.** -/
theorem alone_of_inOrder {I : ℕ → Written → Prop} (hI : I 0 Written.empty)
    (h : ∀ i, i < n → ∀ w, I i.toNat w →
      ∃ w', (run_ i).exec (Written.call i) w = some (a i, w') ∧ I (i.toNat + 1) w') :
    ∃ w, Alone n run_ a w := by
  obtain ⟨w, -, hstands⟩ := (stands_init n run_).inOrder (fun i => .ret (a i)) hI
    (fun i hi _ w hw => by
      obtain ⟨w', hexec, hI'⟩ := h i hi w hw
      exact ⟨w', .of_exec_ret hexec, hI'⟩) (Nat.zero_le _)
  exact ⟨w, hstands.alone fun i hi => if_pos ⟨Nat.zero_le _, hi⟩⟩

/-- **Node `0` begins, the others follow in their order, and node `0` ends.** -/
theorem alone_of_master {p : App β} {f : β → App α} {b : β} {I : ℕ → Written → Prop} {w₁ : Written}
    (hn : 0 < n) (hp : run_ 0 = p >>= f)
    (hbegin : p.exec (Written.call 0) Written.empty = some (b, w₁)) (hI : I 1 w₁)
    (h : ∀ i, i < n → i ≠ 0 → ∀ w, I i.toNat w →
      ∃ w', (run_ i).exec (Written.call i) w = some (a i, w') ∧ I (i.toNat + 1) w')
    (hend : ∀ w, I n.toNat w → ∃ w', (f b).exec (Written.call 0) w = some (a 0, w')) :
    ∃ w, Alone n run_ a w := by
  have hpos : 1 ≤ n.toNat := UInt64.lt_iff_toNat_lt.mp hn
  have h₁ := (stands_init n run_).steps hn (by rw [hp]; exact .of_exec hbegin)
  obtain ⟨w₂, hI₂, h₂⟩ := h₁.inOrder (fun i => .ret (a i)) hI (fun i hi hle w hw => by
    have hi0 : i ≠ 0 := by
      rintro rfl
      exact absurd hle (by decide)
    obtain ⟨w', hexec, hI'⟩ := h i hi hi0 w hw
    rw [Function.update_of_ne hi0]
    exact ⟨w', .of_exec_ret hexec, hI'⟩) hpos
  obtain ⟨w₃, hexec⟩ := hend w₂ hI₂
  have h₃ := h₂.steps hn (by
    rw [if_neg fun hc => absurd hc.1 (by decide), Function.update_self]
    exact .of_exec_ret hexec)
  refine ⟨w₃, h₃.alone fun i hi => ?_⟩
  rw [Function.update_apply]
  split
  · rename_i hi0
    rw [hi0]
  · rename_i hi0
    exact if_pos ⟨Nat.pos_of_ne_zero fun he => hi0 (UInt64.toNat_inj.mp he), hi⟩

/-- **What a node returns in any run is what its program returned alone.** -/
theorem Alone.result_eq (h : Alone n run_ a w) {ts : List ThreadId} {st : Cluster}
    (hrun : run (.ofApps n run_) ts = some st) {i : SizeT} (hi : i < n) {b : α}
    (hb : (run_ i).result (st.nodes i).results = some b) : b = a i := by
  have hw := h.writeOnce
  obtain ⟨is, c, -, honce, hend⟩ := h
  have hle := (honce.results i).le_of_ends (ends_of_after (hend i hi))
    ((told_run hw ⟨ts, hrun⟩).nodes i).results
  have hfin := Prog.result_of_isPrefix hb hle
  rw [Prog.result, hend i hi] at hfin
  exact (Option.some.inj hfin).symm

/-- **In a fair and orderly run every node returns it**, and the nodes together hold what
was put. -/
theorem Alone.ends (h : Alone n run_ a w) (hh : Homed (.ofApps n run_))
    (ρ : Fair (.ofApps n run_)) (ho : OrderlyRun ρ) :
    ∃ m₀, ∀ m, m₀ ≤ m →
      (∀ i, i < n → ((ρ.state m).nodes i).app = .finished ∧ ((ρ.state m).nodes i).rcv = .exited ∧
        (run_ i).result ((ρ.state m).nodes i).results = some (a i)) ∧
      ∀ k, k.homeNode < n → ((ρ.state m).nodes k.homeNode).kv.lookup k = w.values k := by
  have hw := h.writeOnce
  obtain ⟨is, c, hrun, honce, hend⟩ := h
  obtain ⟨m₀, hm₀⟩ := hw.ends hh rfl ρ ho hrun fun i hi => ends_of_after (hend i hi)
  refine ⟨m₀, fun m hm => ⟨fun i hi => ?_, fun k hk => ?_⟩⟩
  · obtain ⟨happ, hrcv, hres⟩ := (hm₀ m hm).1 i hi
    refine ⟨happ, hrcv, ?_⟩
    rw [hres, Prog.result, hend i hi]
    rfl
  · rw [(hm₀ m hm).2 k hk, honce.store]

end

end Pseudo

end Eau2
