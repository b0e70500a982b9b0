/-!
States: the conditions an accessible object can be in, such as focused or checked. A state
travels as a bit, at the position of its code.
-/

namespace AccessTree

inductive State where
  | invalid | active | armed | busy | checked | collapsed | defunct | editable | enabled
  | expandable | expanded | focusable | focused | hasTooltip | horizontal | iconified | modal
  | multiLine | multiselectable | isOpaque | pressed | resizable | selectable | selected
  | sensitive | showing | singleLine | stale | transient | vertical | visible
  | managesDescendants | indeterminate | required | truncated | animated | invalidEntry
  | supportsAutocompletion | selectableText | isDefault | visited
  deriving DecidableEq, Repr

namespace State

/-- Every state, in the order of the codes. -/
def all : List State :=
  [.invalid, .active, .armed, .busy, .checked, .collapsed, .defunct, .editable, .enabled,
    .expandable, .expanded, .focusable, .focused, .hasTooltip, .horizontal, .iconified, .modal,
    .multiLine, .multiselectable, .isOpaque, .pressed, .resizable, .selectable, .selected,
    .sensitive, .showing, .singleLine, .stale, .transient, .vertical, .visible,
    .managesDescendants, .indeterminate, .required, .truncated, .animated, .invalidEntry,
    .supportsAutocompletion, .selectableText, .isDefault, .visited]

def code (s : State) : Nat := s.ctorIdx

def ofCode? (n : Nat) : Option State := all[n]?

def label : State → String
  | .invalid => "Invalid"
  | .active => "Active"
  | .armed => "Armed"
  | .busy => "Busy"
  | .checked => "Checked"
  | .collapsed => "Collapsed"
  | .defunct => "Defunct"
  | .editable => "Editable"
  | .enabled => "Enabled"
  | .expandable => "Expandable"
  | .expanded => "Expanded"
  | .focusable => "Focusable"
  | .focused => "Focused"
  | .hasTooltip => "HasTooltip"
  | .horizontal => "Horizontal"
  | .iconified => "Iconified"
  | .modal => "Modal"
  | .multiLine => "MultiLine"
  | .multiselectable => "Multiselectable"
  | .isOpaque => "Opaque"
  | .pressed => "Pressed"
  | .resizable => "Resizable"
  | .selectable => "Selectable"
  | .selected => "Selected"
  | .sensitive => "Sensitive"
  | .showing => "Showing"
  | .singleLine => "SingleLine"
  | .stale => "Stale"
  | .transient => "Transient"
  | .vertical => "Vertical"
  | .visible => "Visible"
  | .managesDescendants => "ManagesDescendants"
  | .indeterminate => "Indeterminate"
  | .required => "Required"
  | .truncated => "Truncated"
  | .animated => "Animated"
  | .invalidEntry => "InvalidEntry"
  | .supportsAutocompletion => "SupportsAutocompletion"
  | .selectableText => "SelectableText"
  | .isDefault => "IsDefault"
  | .visited => "Visited"

@[simp] theorem ofCode?_code (s : State) : ofCode? s.code = some s := by cases s <;> rfl

theorem code_lt (s : State) : s.code < 41 := by cases s <;> decide

theorem code_inj {x y : State} : x.code = y.code ↔ x = y := by
  constructor
  · intro h
    have := ofCode?_code x
    rw [h, ofCode?_code] at this
    exact (Option.some.inj this).symm
  · rintro rfl; rfl

theorem mem_all (s : State) : s ∈ all := by cases s <;> decide

theorem ofCode?_eq_none_iff {n : Nat} : ofCode? n = none ↔ 41 ≤ n := by
  simp [ofCode?, all]

theorem ofCode?_eq_some_iff {n : Nat} {x : State} : ofCode? n = some x ↔ x.code = n := by
  constructor
  · intro h
    have hcodes : all.map code = List.range 41 := rfl
    have hn := congrArg (Option.map code) h
    rw [ofCode?, ← List.getElem?_map, hcodes] at hn
    simpa [eq_comm] using (List.getElem?_eq_some_iff.1 hn).2
  · rintro rfl
    exact ofCode?_code x

end State

end AccessTree
