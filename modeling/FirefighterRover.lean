import FirefighterRover.Startup
import FirefighterRover.Statistics
import FirefighterRover.StatusPipeline
import FirefighterRover.Telemetry
import FirefighterRover.JsmnLexing
import FirefighterRover.JsmnOutline
import FirefighterRover.Topics
import FirefighterRover.JsmnFlat
import FirefighterRover.ParseString
import FirefighterRover.StatusJson
import FirefighterRover.CommandTexts
import FirefighterRover.Acceptance
import FirefighterRover.MessageBounds
import FirefighterRover.TopicOrder
import FirefighterRover.CommandRoundTrip
import FirefighterRover.ClientId
import FirefighterRover.QueueRecords
import FirefighterRover.ApConnection
import FirefighterRover.Draining
import FirefighterRover.RemoteControl
import FirefighterRover.PublishOrder
import FirefighterRover.JsmnDocuments
import FirefighterRover.JsmnForest
import FirefighterRover.JsmnVerdicts
import FirefighterRover.JsmnResume
import FirefighterRover.UartTerm
import FirefighterRover.Heap
import FirefighterRover.TestDrive
import FirefighterRover.BringUp
import FirefighterRover.JsmnLinkedDocuments
import FirefighterRover.JsmnStrictDocuments
import FirefighterRover.Shutdown
