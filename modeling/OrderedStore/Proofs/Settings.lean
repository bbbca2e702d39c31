import OrderedStore.Settings
import OrderedStore.SortedMap

/-!
# Settings, however they came about

* `Settings.ofPairs pairs` : settings in which options are set in turn, of which some may have the
  same name;
* `Settings.ofPairs_eq_ofMap`, `Settings.ofOptions?_texts` : inserting the pairs into a map and
  reading them as the fields of an object come to the same;
* `Settings.option?_ofPairs`, `Settings.mem_names_ofPairs` : the last pair of a name has the say,
  and the names are those of the pairs;
* `Settings.SameOrders pairs pairs'`, `Settings.ofPairs_congr` : only the order within the pairs of
  one name matters;
* `Settings.ofDocument?_toDocument` : settings written as plain data are read back;
* `Settings.same_however_built` : all of this of the settings of any pairs.
-/

namespace OrderedStore.Settings

/-- Settings in which these options are set in turn, where at first there are none. -/
def ofPairs (pairs : List (String × String)) : Settings :=
  pairs.foldl (fun settings e => settings.withOption e.1 e.2) empty

def names (settings : Settings) : List String := settings.options.toList.map (·.1)

/-- For each name, both rows have the same pairs of it in the same order. -/
def SameOrders (pairs pairs' : List (String × String)) : Prop :=
  ∀ name, pairs.filter (·.1 = name) = pairs'.filter (·.1 = name)

/-! ## Names -/

theorem names_ascending (settings : Settings) : settings.names.Pairwise ByteKey.Before :=
  List.pairwise_map.2 settings.options.ascending

theorem mem_names {settings : Settings} {name : String} :
    name ∈ settings.names ↔ (settings.option? name).isSome = true := SortedMap.mem_map_fst_toList

theorem isEmpty_iff {settings : Settings} : settings.isEmpty = true ↔ settings.names = [] := by
  rw [names, List.map_eq_nil_iff]
  exact SortedMap.isEmpty_iff

/-! ## Options set in turn -/

section OfPairs
variable {pairs pairs' : List (String × String)}

theorem ofPairs_eq_ofMap (pairs : List (String × String)) : ofPairs pairs = ofMap (.ofList pairs) :=
  List.foldl_hom ofMap fun _ _ => rfl

theorem option?_ofPairs (pairs : List (String × String)) (name : String) :
    (ofPairs pairs).option? name = (pairs.filter (·.1 = name)).getLast?.map (·.2) := by
  rw [ofPairs_eq_ofMap]
  exact SortedMap.get?_ofList pairs name

theorem option?_ofPairs_eq_none_iff {name : String} :
    (ofPairs pairs).option? name = none ↔ name ∉ pairs.map (·.1) := by
  rw [ofPairs_eq_ofMap]
  exact SortedMap.get?_ofList_eq_none_iff

theorem mem_names_ofPairs {name : String} : name ∈ (ofPairs pairs).names ↔ name ∈ pairs.map (·.1) := by
  rw [mem_names, Option.isSome_iff_ne_none, Ne, option?_ofPairs_eq_none_iff, Decidable.not_not]

theorem isEmpty_ofPairs_iff : (ofPairs pairs).isEmpty = true ↔ pairs = [] := by
  rw [isEmpty_iff, List.eq_nil_iff_forall_not_mem]
  simp only [mem_names_ofPairs]
  rw [← List.eq_nil_iff_forall_not_mem, List.map_eq_nil_iff]

theorem ofPairs_congr (h : SameOrders pairs pairs') : ofPairs pairs = ofPairs pairs' := by
  have hmap : SortedMap.ofList pairs = SortedMap.ofList pairs' := SortedMap.ext_get? fun name => by
    rw [SortedMap.get?_ofList, SortedMap.get?_ofList, h name]
  rw [ofPairs_eq_ofMap, ofPairs_eq_ofMap, hmap]

end OfPairs

/-! ## Settings as plain data -/

theorem ofOptions?_texts (pairs : List (String × String)) :
    ofOptions? (.object (pairs.map fun e => (e.1, .text e.2))) = some (ofPairs pairs) := by
  have htexts : (pairs.map fun e => (e.1, Document.text e.2)).mapM
      (fun e => e.2.text?.map fun value => (e.1, value)) = some pairs := by
    rw [List.mapM_map]
    exact (List.mapM_pure (f := id)).trans (congrArg some (List.map_id pairs))
  rw [ofOptions?, htexts, ofPairs_eq_ofMap]
  rfl

theorem ofDocument?_options (options : Document) :
    ofDocument? (.object [(optionsField, options)]) = ofOptions? options := by
  simp [ofDocument?]

theorem ofDocument?_toDocument (settings : Settings) : ofDocument? settings.toDocument = some settings := by
  rw [toDocument, ofDocument?_options, ofOptions?_texts, ofPairs_eq_ofMap, SortedMap.ofList_toList]
  rfl

/-- **Settings are the same however they are built**: option by option, from a map, in another order
that keeps the pairs of one name in turn, or from plain data. -/
theorem same_however_built (pairs : List (String × String)) :
    ofPairs pairs = ofMap (.ofList pairs) ∧
    (∀ name, (ofPairs pairs).option? name = (pairs.filter (·.1 = name)).getLast?.map (·.2) ∧
      ((ofPairs pairs).option? name = none ↔ name ∉ pairs.map (·.1))) ∧
    ((ofPairs pairs).names.Pairwise (fun a b => a.toUTF8.data.toList < b.toUTF8.data.toList) ∧
      ∀ name, name ∈ (ofPairs pairs).names ↔ name ∈ pairs.map (·.1)) ∧
    ((ofPairs pairs).isEmpty = true ↔ pairs = []) ∧
    (∀ pairs', SameOrders pairs pairs' → ofPairs pairs' = ofPairs pairs) ∧
    ofDocument? (ofPairs pairs).toDocument = some (ofPairs pairs) := by
  refine ⟨ofPairs_eq_ofMap pairs, fun name => ⟨option?_ofPairs pairs name, option?_ofPairs_eq_none_iff⟩,
    ⟨(ofPairs pairs).names_ascending, fun name => mem_names_ofPairs⟩, isEmpty_ofPairs_iff, fun pairs' h => ?_,
    ofDocument?_toDocument (ofPairs pairs)⟩
  exact (ofPairs_congr h).symm

/-- The second name comes first, since its first byte is less. -/
theorem same_however_built_reordered :
    let pairs := [("é", "1"), ("z", "2"), ("é", "3")]
    let pairs' := [("é", "1"), ("é", "3"), ("z", "2")]
    SameOrders pairs pairs' ∧ ofPairs pairs' = ofPairs pairs ∧ (ofPairs pairs').option? "é" = some "3" ∧
      (ofPairs pairs').names = ["z", "é"] := by
  intro pairs pairs'
  have horders : SameOrders pairs pairs' := by
    intro name
    by_cases hname : "z" = name
    · subst hname
      rfl
    · simp [pairs, pairs', List.filter_cons, hname]
  obtain ⟨-, hoption, -, -, hsame, -⟩ := same_however_built pairs
  have hsettings := hsame pairs' horders
  refine ⟨horders, hsettings, ?_, by decide +kernel⟩
  rw [hsettings, (hoption "é").1]
  rfl

end OrderedStore.Settings
