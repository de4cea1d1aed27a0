import SelectorEngine.Engine.Basic
import SelectorEngine.Proofs.Matching.Backward
import SelectorEngine.Proofs.Matching.Nested
import SelectorEngine.Proofs.Selector.Reading

/-! # What the engine answers

Below a context, a selector that can be read is answered by its branches, unless a delegate answers
it first. -/
namespace SelectorEngine

namespace Engine

variable {N : Type} [DecidableEq N] {e : Engine N} {selector : String} {list : SelectorList}
  {context : N}

omit [DecidableEq N] in
theorem isIdle_of_read (valid : e.view.isContext context = true)
    (read : SelectorList.parse selector = .ok list) : e.isIdle selector context = false := by
  rw [isIdle, valid, SelectorList.not_blank_of_parse read]
  rfl

omit [DecidableEq N] in
theorem delegated_seed (e : Engine N) (selector : String) (context : N) (seed : List N) :
    e.delegated selector context (some seed) = .ok none := by
  rw [delegated]
  cases e.delegate with
  | none => rfl
  | some delegate => simp

theorem selectFrom_read (valid : e.view.isContext context = true)
    (read : SelectorList.parse selector = .ok list) (seed : List N) :
    e.selectFrom selector context seed = .ok (settle e.view list.branches.length
      (list.found e.view e.config context (some seed))) := by
  rw [selectFrom, selectInto, isIdle_of_read valid read, delegated_seed]
  simp only [Bool.false_eq_true, if_false, selectRead, read, List.nil_append]
  rfl

theorem select_idle (idle : e.isIdle selector context = true) :
    e.select selector context = .ok [] := by
  rw [select, selectInto, idle]
  rfl

def shortcut (e : Engine N) (selector : String) (context : N) : Option (List N) :=
  (e.delegated selector context none).toOption.join

omit [DecidableEq N] in
theorem shortcut_alone (alone : e.delegate = none) (selector : String) (context : N) :
    e.shortcut selector context = none := by
  rw [shortcut, delegated, alone]
  rfl

omit [DecidableEq N] in
theorem shortcut_native (native : e.config.nativeQuery = false) (selector : String) (context : N) :
    e.shortcut selector context = none := by
  rw [shortcut, delegated, native]
  cases e.delegate <;> rfl

omit [DecidableEq N] in
theorem shape_of_shortcut (fast : e.delegate = some .byShape) {found : List N}
    (answered : e.shortcut selector context = some found) :
    e.view.isXml context = false ∧
      ∃ shape, Shape.ofSelector? selector = some shape ∧
        shape.query e.view context = some found := by
  rw [shortcut, delegated, fast] at answered
  split at answered
  · cases answered
  · next delegate known =>
    obtain rfl := Option.some.inj known
    split at answered
    · next allowed =>
      rw [Bool.and_eq_true, Bool.not_eq_true'] at allowed
      exact ⟨allowed.2, Option.bind_eq_some_iff.mp answered⟩
    · cases answered

/-- A selection is the answer of the delegate, or else what comes of reading the selector. -/
theorem select_busy (busy : e.isIdle selector context = false) :
    e.select selector context = (e.shortcut selector context).elim
      (e.selectRead selector context [] none).toExcept .ok := by
  rw [select, selectInto, busy, shortcut]
  simp only [Bool.false_eq_true, if_false]
  rcases e.delegated selector context none with error | _ | found <;> rfl

theorem select_eq (valid : e.view.isContext context = true)
    (read : SelectorList.parse selector = .ok list) :
    e.select selector context = .ok ((e.shortcut selector context).getD
      ((list.query e.view e.config).answer context none)) := by
  rw [select_busy (isIdle_of_read valid read), selectRead, read, SelectorList.answer_query,
    if_pos valid]
  cases e.shortcut selector context <;> rfl

theorem select_read (valid : e.view.isContext context = true)
    (read : SelectorList.parse selector = .ok list) (alone : e.delegate = none) :
    e.select selector context = .ok (settle e.view list.branches.length
      (list.found e.view e.config context none)) := by
  rw [select_eq valid read, shortcut_alone alone, SelectorList.answer_query, if_pos valid]
  rfl

end Engine

theorem SelectorList.found_single {N : Type} [DecidableEq N] {view : TreeView N} {config : Config}
    {list : SelectorList} {branch : Complex SelectorList} (one : list.branches = [branch])
    {context : N} (valid : view.isContext context = true) (seed : Option (List N)) :
    settle view list.branches.length (list.found view config context seed) =
      (⟨view, config, view.isXml context⟩ : Setting N).evaluateBranch
        (branch.map (query view config)) context seed := by
  rw [found, gather, if_pos valid, one]
  simp [settle]

theorem SelectorList.free_branch {list : SelectorList} (free : list.hasPositional = false)
    {branch : Complex SelectorList} (hb : branch ∈ list.branches) :
    branch.hasPositional SelectorList.hasPositional = false := by
  rw [SelectorList.hasPositional_eq, List.any_eq_false] at free
  exact Bool.not_eq_true _ ▸ free branch hb

theorem Simple.map_ne_star {A B : Type} (f : A → B) {simple : Simple A} (h : simple ≠ .tag "*") :
    simple.map f ≠ .tag "*" := by
  cases simple with
  | tag name =>
    rintro he
    cases he
    exact h rfl
  | _ => exact fun he => nomatch he

namespace Tree

/-- A chain with its arguments replaced by what they mean in the tree. -/
def meant (t : Tree) (config : Config) (chain : Chain SelectorList) : Chain (Query NodeId) :=
  chain.map (SelectorList.query t.view config)

variable {t : Tree} {config : Config} {selector : String} {list : SelectorList}
  {chain : Chain SelectorList} {context : NodeId}

theorem meant_star (star : chain.All (· ≠ .tag "*")) : (t.meant config chain).All (· ≠ .tag "*") :=
  Chain.All.map fun simple hs => Simple.map_ne_star _ (star simple hs)

theorem meant_steady (steady : chain.Steady) : (t.meant config chain).Steady := by
  rw [Chain.Steady, meant, Chain.map, List.isChain_map]
  exact steady

theorem isSome_last?_meant (read : SelectorList.parse selector = .ok list)
    (single : list.chain? = some chain) : (t.meant config chain).last?.isSome = true := by
  rw [meant, Chain.last?_map, Option.isSome_map]
  exact SelectorList.isSome_last?_of_parse read single

theorem simples_meant {branch : Complex SelectorList}
    (hp : Chain.ofParts? branch.parts = some chain) :
    (t.meant config chain).simples = (branch.map (SelectorList.query t.view config)).simples := by
  rw [meant, Chain.simples_map, Chain.simples_ofParts? hp, Complex.simples_map, Complex.simples]

theorem ofParts?_meant {branch : Complex SelectorList}
    (written : Chain.ofParts? branch.parts = some chain) :
    Chain.ofParts? (branch.map (SelectorList.query t.view config)).parts =
      some (t.meant config chain) := by
  rw [Complex.map, Chain.ofParts?_map, written]
  rfl

theorem exists_meant (t : Tree) (config : Config) (read : SelectorList.parse selector = .ok list)
    {branch : Complex SelectorList} (hb : branch ∈ list.branches) :
    ∃ chain, Chain.ofParts? (branch.map (SelectorList.query t.view config)).parts = some chain ∧
      chain.last?.isSome = true := by
  obtain ⟨chain, hchain, hlast⟩ := SelectorList.chains_of_parse read branch hb
  refine ⟨t.meant config chain, ofParts?_meant hchain, ?_⟩
  rwa [meant, Chain.last?_map, Option.isSome_map]

theorem hasPositional_meant (single : list.chain? = some chain) :
    (t.meant config chain).hasPositional Query.positional = list.hasPositional := by
  obtain ⟨branch, hb, hp⟩ := SelectorList.chain?_eq_some single
  rw [Chain.hasPositional_eq, simples_meant hp, ← Complex.hasPositional_eq,
    SelectorList.hasPositional_branch, SelectorList.hasPositional_eq, hb]
  simp

namespace Linked

theorem meant_local (h : t.Linked) (single : list.chain? = some chain)
    (free : list.hasPositional = false) : (t.meant config chain).All (Simple.Local t.view) := by
  obtain ⟨branch, hb, hp⟩ := SelectorList.chain?_eq_some single
  rw [SelectorList.hasPositional_eq, hb] at free
  rw [Chain.All, simples_meant hp]
  exact SelectorList.local_branch h.outline_linked h.isContext_root (by simpa using free)

theorem meant_faithful (h : t.Linked) (single : list.chain? = some chain) :
    ∀ q, .not q ∈ (t.meant config chain).simples → q.Faithful t.view := by
  obtain ⟨branch, hb, hp⟩ := SelectorList.chain?_eq_some single
  rw [simples_meant hp]
  exact SelectorList.faithful_branch h.outline_linked h.isContext_root branch

theorem evaluateBranch_seed (h : t.Linked) (config : Config) {branch : Complex SelectorList}
    (free : branch.hasPositional SelectorList.hasPositional = false) (context : NodeId)
    (seed : List NodeId) :
    (t.setting config).evaluateBranch (branch.map (SelectorList.query t.view config)) context
        (some seed) =
      seed.filter ((t.setting config).selects (branch.map (SelectorList.query t.view config))
        context) :=
  Setting.evaluateBranch_seed (h.regular config)
    (SelectorList.local_branch h.outline_linked h.isContext_root free)
    ((SelectorList.hasPositional_branch branch).trans free) context seed

/-- The only branch is evaluated from left to right if a chain of several compounds is positional,
and else from right to left. -/
theorem select_single (h : t.Linked) (read : SelectorList.parse selector = .ok list)
    (single : list.chain? = some chain) (hc : t.IsContext context) :
    (⟨t.view, config, none⟩ : Engine NodeId).select selector context =
      .ok (if !chain.links.isEmpty && list.hasPositional then
          ((t.setting config).evaluateForward (t.meant config chain) context none {}).1
        else ((t.setting config).evaluateBackward (t.meant config chain) context none {}).1) := by
  obtain ⟨branch, hb, hp⟩ := SelectorList.chain?_eq_some single
  have hlinks : (t.meant config chain).links.isEmpty = chain.links.isEmpty := by
    rw [meant, Chain.map, List.isEmpty_map]
  have hpos : (t.meant config chain).hasPositional Query.positional = list.hasPositional :=
    hasPositional_meant single
  rw [Engine.select_read (h.valid hc) read rfl, SelectorList.found_single hb (h.valid hc),
    Setting.evaluateBranch, ofParts?_meant hp, ← hlinks, ← hpos]
  rfl

theorem isMatch_single (h : t.Linked) (read : SelectorList.parse selector = .ok list)
    {source : String} {rest : Option String} {simple : Simple SelectorList}
    (one : list.branches = [⟨[.compound ⟨source, [simple]⟩], rest⟩])
    (alone : (simple.map (SelectorList.query t.view config)).Local t.view) (n : NodeId) :
    (⟨t.view, config, none⟩ : Engine NodeId).isMatch n selector =
      .ok ((t.setting config).satisfies (simple.map (SelectorList.query t.view config)) n) := by
  have plain : (simple.map (SelectorList.query t.view config)).isPositional = false := by
    cases simple with
    | position place => exact alone.elim
    | _ => rfl
  have run := Setting.evaluateBranch_single (h.regular config) plain
    (fun q he => (he ▸ alone).1) source rest root [n]
  rw [Setting.outcomes_local alone, Setting.keep_map] at run
  have kept : (⟨t.view, config, none⟩ : Engine NodeId).filter selector [n] =
      .ok ([n].filter ((t.setting config).satisfies
        (simple.map (SelectorList.query t.view config)))) := by
    rw [Engine.filter, Engine.selectFrom_read h.isContext_root read]
    refine congrArg Except.ok ((SelectorList.found_single one h.isContext_root (some [n])).trans ?_)
    exact run
  change ((⟨t.view, config, none⟩ : Engine NodeId).filter selector [n]).map _ = _
  rw [kept, List.filter_singleton]
  cases (t.setting config).satisfies (simple.map (SelectorList.query t.view config)) n <;> rfl

theorem select_compound (h : t.Linked) (read : SelectorList.parse selector = .ok list)
    {simples : List (Simple SelectorList)} (single : list.chain? = some ⟨some simples, []⟩)
    {found : List NodeId} (run : ((t.setting config).evaluateBackward
      (t.meant config ⟨some simples, []⟩) root none {}).1 = found) :
    (⟨t.view, config, none⟩ : Engine NodeId).select selector root = .ok found := by
  rw [h.select_single read single (.inl rfl), ← run]
  rfl

end Linked
end Tree
end SelectorEngine
