import BuchiToRabin.Proofs.Tree.Valid
namespace BuchiToRabin.Forest

inductive Has : Forest Vertex → Vertex → Forest Vertex → Prop where
  | root : Has (.cons v kids right) v kids
  | under (has : Has kids w deeper) : Has (.cons v kids right) w deeper
  | beside (has : Has right w deeper) : Has (.cons v kids right) w deeper

-- The first root that holds a state, with its place among the roots and its kids.
inductive Finds (q : Nat) : Forest Vertex → Nat → Vertex → Forest Vertex → Prop where
  | here (held : q ∈ v.label) : Finds q (.cons v kids right) 0 v kids
  | later (missed : q ∉ v.label) (finds : Finds q right place w deeper) :
      Finds q (.cons v kids right) (place + 1) w deeper

variable {f g kids deeper : Forest Vertex} {v w : Vertex} {q place : Nat} {x : Name}

theorem has_append : (f ++ g).Has v kids ↔ f.Has v kids ∨ g.Has v kids := by
  induction f with
  | nil => exact ⟨.inr,fun has => has.resolve_left nofun⟩
  | cons w below right _ ih =>
    rw [cons_append]
    constructor
    · intro has
      cases has with
      | root => exact .inl .root
      | under has => exact .inl (.under has)
      | beside has => exact (ih.mp has).imp_left .beside
    · intro has
      rcases has with has | has
      · cases has with
        | root => exact .root
        | under has => exact .under has
        | beside has => exact .beside (ih.mpr (.inl has))
      · exact .beside (ih.mpr (.inr has))

theorem Has.trans (outer : f.Has v kids) (inner : kids.Has w deeper) : f.Has w deeper := by
  induction outer with
  | root => exact .under inner
  | under _ ih => exact .under (ih inner)
  | beside _ ih => exact .beside (ih inner)

theorem mem_names_iff : x ∈ f.names ↔ ∃ v kids, f.Has v kids ∧ v.name = x := by
  constructor
  · intro named
    induction f with
    | nil => exact absurd named NatSet.not_mem_empty
    | cons v kids right below ih =>
      rw [names_cons,NatSet.mem_insert,NatSet.mem_union] at named
      rcases named with rfl | named | named
      · exact ⟨v,kids,.root,rfl⟩
      · obtain ⟨w,deeper,has,name⟩ := below named
        exact ⟨w,deeper,.under has,name⟩
      · obtain ⟨w,deeper,has,name⟩ := ih named
        exact ⟨w,deeper,.beside has,name⟩
  · intro node
    obtain ⟨v,kids,has,rfl⟩ := node
    induction has with
    | root => simp
    | under _ ih => simp [ih]
    | beside _ ih => simp [ih]

theorem Has.name_mem (has : f.Has v kids) : v.name ∈ f.names := mem_names_iff.mpr ⟨v,kids,has,rfl⟩

theorem mem_preorder_iff : v ∈ f.preorder ↔ ∃ kids, f.Has v kids := by
  constructor
  · intro node
    induction f with
    | nil => cases node
    | cons w kids right below ih =>
      rw [preorder,List.mem_cons,List.mem_append] at node
      rcases node with rfl | node | node
      · exact ⟨kids,.root⟩
      · obtain ⟨deeper,has⟩ := below node
        exact ⟨deeper,.under has⟩
      · obtain ⟨deeper,has⟩ := ih node
        exact ⟨deeper,.beside has⟩
  · intro node
    obtain ⟨kids,has⟩ := node
    induction has with
    | root => simp [preorder]
    | under _ ih => simp [preorder,ih]
    | beside _ ih => simp [preorder,ih]

theorem Has.unique (distinct : f.nameList.Nodup) (one : f.Has v kids) (other : f.Has w deeper)
    (same : v.name = w.name) : v = w ∧ kids = deeper := by
  induction f with
  | nil => cases one
  | cons u below right belowIh rightIh =>
    obtain ⟨new,belowDistinct,rightDistinct,apart⟩ := distinct_cons.mp distinct
    rw [NatSet.mem_union,not_or] at new
    cases one with
    | root =>
      cases other with
      | root => exact ⟨rfl,rfl⟩
      | under has => exact absurd (same ▸ has.name_mem) new.1
      | beside has => exact absurd (same ▸ has.name_mem) new.2
    | under one =>
      cases other with
      | root => exact absurd (same ▸ one.name_mem) new.1
      | under has => exact belowIh belowDistinct one has
      | beside has => exact absurd (same ▸ has.name_mem) (apart _ one.name_mem)
    | beside one =>
      cases other with
      | root => exact absurd (same ▸ one.name_mem) new.2
      | under has => exact absurd (same ▸ one.name_mem) (apart _ has.name_mem)
      | beside has => exact rightIh rightDistinct one has

theorem Has.heads (has : f.Has v kids) (lawful : f.Lawful) : v.Heads kids := by
  induction has with
  | root => exact lawful.1
  | under _ ih => exact ih lawful.2.1
  | beside _ ih => exact ih lawful.2.2

theorem Has.label_subset (has : f.Has v kids) : v.label ⊆ f.states := by
  induction has with
  | root => simp only [states_cons]; grind
  | under _ ih => simp only [states_cons]; grind
  | beside _ ih => simp only [states_cons]; grind

theorem Finds.has (finds : f.Finds q place v kids) : f.Has v kids := by
  induction finds with
  | here _ => exact .root
  | later _ _ ih => exact .beside ih

theorem Finds.held (finds : f.Finds q place v kids) : q ∈ v.label := by
  induction finds with
  | here held => exact held
  | later _ _ ih => exact ih

theorem Finds.label_subset (finds : f.Finds q place v kids) : v.label ⊆ f.cover := by
  induction finds with
  | here _ => simp only [cover_cons]; grind
  | later _ _ ih => simp only [cover_cons]; grind

theorem Finds.unique {other : Nat} (finds : f.Finds q place v kids) :
    f.Finds q other w deeper → place = other ∧ v = w := by
  induction finds generalizing other with
  | here held =>
    intro again
    cases again with
    | here _ => exact ⟨rfl,rfl⟩
    | later missed _ => exact absurd held missed
  | later missed _ ih =>
    intro again
    cases again with
    | here held => exact absurd held missed
    | later _ again =>
      obtain ⟨rfl,same⟩ := ih again
      exact ⟨rfl,same⟩

theorem exists_finds (held : q ∈ f.cover) : ∃ place v kids, f.Finds q place v kids := by
  induction f with
  | nil => exact absurd held NatSet.not_mem_empty
  | cons w below right _ ih =>
    by_cases here : q ∈ w.label
    · exact ⟨0,w,below,.here here⟩
    · rw [cover_cons,NatSet.mem_union] at held
      obtain ⟨place,v,kids,finds⟩ := ih (held.resolve_left here)
      exact ⟨place + 1,v,kids,.later here finds⟩

end BuchiToRabin.Forest
