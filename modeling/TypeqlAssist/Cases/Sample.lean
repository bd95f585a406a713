/-!
# Sample documents

Small documents that use the main parts of the language.
-/

namespace TypeqlAssist

namespace Cases

namespace Sample

/-- Entities, a relation and attributes of a social network. -/
def socialSchema : String :=
  "define\n" ++
  "entity person, owns name, owns age, plays friendship:friend;\n" ++
  "relation friendship, relates friend, owns since;\n" ++
  "attribute name, value string;\n" ++
  "attribute age, value integer;\n" ++
  "attribute since, value datetime;\n" ++
  "end;"

/-- A relation that extends another one. -/
def relationHierarchy : String :=
  "define\nrelation friendship sub relationship, relates friend; end;"

/-- A function over a match stage. -/
def functionDefinition : String :=
  "define\n" ++
  "fun foo($x: integer) -> integer:\n" ++
  "match let $y = foo() * ($x + 1);\n" ++
  "return first $y;\n" ++
  "end;"

/-- Match, disjunction and insert in one pipeline. -/
def matchInsertPipeline : String :=
  "match $x isa person; \x7b $x has name $name; \x7d or \x7b $r links (friend: $x); \x7d; " ++
  "insert $x has name \"Steve\"; end;"

/-- Match followed by stream modifiers. -/
def modifierPipeline : String :=
  "match $x isa person, has age $a; sort $a desc; limit 10; offset 5; select $x;"

/-- A schema query and the start of a data query. -/
def schemaThenData : String :=
  "define entity person; relation friendship;\nmatch $x isa "

/-- The samples by name. -/
def all : List (String × String) :=
  [("social_schema", socialSchema), ("relation_hierarchy", relationHierarchy),
   ("function_definition", functionDefinition), ("match_insert_pipeline", matchInsertPipeline),
   ("modifier_pipeline", modifierPipeline), ("schema_then_data", schemaThenData)]

/-- The sample with a name. -/
def find? (name : String) : Option String :=
  (all.find? (·.1 == name)).map (·.2)

end Sample

end Cases

end TypeqlAssist
