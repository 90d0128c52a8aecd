/-! Values that generated documents carry, and usual directories. Most are settings of the environment; these are the
    values of settings that are not made. -/

namespace ProcessForge.Defaults

/-- How long Camunda keeps the history of a definition. -/
def historyTimeToLive : String := "P180D"

/-- Program that is named as the author of Camunda documents. -/
def exporter : String := "Camunda Modeler"

def exporterVersion : String := "5.27.0"

def platform : String := "Camunda Platform"

def platformVersion : String := "7.24.0"

def targetNamespace : String := "http://bpmn.io/schema/bpmn"

/-- User of a Bonita configuration without an organization. -/
def userName : String := "walter.bates"

def modelPackage : String := "com.company.model"

def restVersion : String := "1.5.0"

def emailVersion : String := "1.3.0"

def connectorModelVersion : String := "9"

def modelDirectory : String := "models"

def outputDirectory : String := "output"

/-- A path, or the usual one where none is given. -/
def orUsual (usual path : String) : String := if path.isEmpty then usual else path

def modelClass (name : String) : String := modelPackage ++ "." ++ name

end ProcessForge.Defaults
