import Mathlib
import SelectorEngine.Proofs.Engine.Answers
import SelectorEngine.Proofs.Matching.NameLookup
import SelectorEngine.Proofs.Tree.Blueprints

/-! # Selecting with and without the index of names

The index of names saves work and nothing else where every compound may be looked up by name. -/
namespace SelectorEngine.Tree

variable {t : Tree} {selector : String} {list : SelectorList}

/-- The switch of the index of names does not show in a selection, whatever the other switches and
the delegate, as long as no negation that counts and no tag called `*` comes before an exact
name. -/
theorem select_withNames (built : t.WellBuilt) (config : Config)
    (delegate : Option (Delegate NodeId)) (read : SelectorList.parse selector = .ok list)
    (indexable : list.Indexable) (context : NodeId) :
    (⟨t.view, { config with nameLookup := true }, delegate⟩ : Engine NodeId).select
        selector context =
      (⟨t.view, { config with nameLookup := false }, delegate⟩ : Engine NodeId).select
        selector context := by
  have h := built.linked
  by_cases valid : t.view.isContext context = true
  · have same : list.query t.view { config with nameLookup := true } =
        list.query t.view { config with nameLookup := false } :=
      h.query_withNames { config with nameLookup := false } true indexable
    rw [Engine.select_eq valid read, Engine.select_eq valid read, same]
    rfl
  · have idle (config : Config) :
        (⟨t.view, config, delegate⟩ : Engine NodeId).isIdle selector context = true := by
      simp only [Engine.isIdle, valid, Bool.not_false, Bool.true_or]
    rw [Engine.select_idle (idle _), Engine.select_idle (idle _)]

def form : Blueprint where
  children := [.element "form" [] [.element "input" [("name", "q")] [], .element "input" [] [],
    .element "input" [("name", "q")] []]]

def laterFields : SelectorList :=
  .mk "input[name=q]:not(:first)" [{ parts := [.compound ⟨"input[name=q]:not(:first)",
    [.tag "input", .attr ⟨"name", some (.equals, "q")⟩, .not .foremost]⟩] }]

theorem read_laterFields :
    SelectorList.parse "input[name=q]:not(:first)" = .ok laterFields := by cbv

theorem indexable_laterFields : laterFields.Indexable := by
  have first : SelectorList.foremost.Indexable := by
    refine .intro ?_ ?_
    · simp [SelectorList.foremost, SelectorList.branches, Complex.compounds, Part.compound?,
        Indexable]
    · simp [SelectorList.foremost, SelectorList.branches, Complex.simples, Part.simples]
  refine .intro ?_ ?_
  · simp [laterFields, SelectorList.branches, Complex.compounds, Part.compound?, Indexable,
      Simple.exactName?, Simple.isMovable]
  · intro branch hb nested hn
    obtain rfl := List.mem_singleton.mp hb
    have argument : nested = SelectorList.foremost := by
      simpa [Complex.simples, Part.simples] using hn
    exact argument ▸ first

theorem select_withNames_laterFields :
    (⟨form.build.view, { nameLookup := true }, some .byShape⟩ : Engine NodeId).select
        "input[name=q]:not(:first)" root =
      (⟨form.build.view, { nameLookup := false }, some .byShape⟩ : Engine NodeId).select
        "input[name=q]:not(:first)" root :=
  select_withNames form.wellBuilt_build {} (some .byShape) read_laterFields
    indexable_laterFields root

def anchored : Blueprint where
  children := [.element "p" [] [], .element "a" [("name", "x")] []]

def namedLater : SelectorList :=
  .mk ":not(:first)[name=x]" [{ parts := [.compound ⟨":not(:first)[name=x]",
    [.not .foremost, .attr ⟨"name", some (.equals, "x")⟩]⟩] }]

def namedStar : SelectorList :=
  .mk "\\*[name=x]" [{ parts := [.compound ⟨"\\*[name=x]",
    [.tag "*", .attr ⟨"name", some (.equals, "x")⟩]⟩] }]

/-- The switch shows where the anchor is the first of the named elements, but not of all, and where
a tag called `*` stands for every tag only if it is looked up. -/
theorem names_change_selection :
    anchored.build.WellBuilt ∧ anchored.build.isXml = false ∧ anchored.build.UniqueIds ∧
      (SelectorList.parse ":not(:first)[name=x]" = .ok namedLater ∧
        (⟨anchored.build.view, { Config.allOff with nameLookup := true }, none⟩ :
          Engine NodeId).select ":not(:first)[name=x]" root = .ok [] ∧
        (⟨anchored.build.view, { Config.allOff with nameLookup := false }, none⟩ :
          Engine NodeId).select ":not(:first)[name=x]" root = .ok [2]) ∧
      (SelectorList.parse "\\*[name=x]" = .ok namedStar ∧
        (⟨anchored.build.view, { Config.allOff with nameLookup := true }, none⟩ :
          Engine NodeId).select "\\*[name=x]" root = .ok [] ∧
        (⟨anchored.build.view, { Config.allOff with nameLookup := false }, none⟩ :
          Engine NodeId).select "\\*[name=x]" root = .ok [2]) := by
  have built := anchored.wellBuilt_build
  have later : SelectorList.parse ":not(:first)[name=x]" = .ok namedLater := by cbv
  have star : SelectorList.parse "\\*[name=x]" = .ok namedStar := by cbv
  refine ⟨built, by decide, built.linked.uniqueIds (by decide), ⟨later, ?_, ?_⟩,
    star, ?_, ?_⟩
  · exact built.linked.select_compound later rfl (by decide)
  · exact built.linked.select_compound later rfl (by decide)
  · exact built.linked.select_compound star rfl (by decide)
  · exact built.linked.select_compound star rfl (by decide)

end SelectorEngine.Tree
